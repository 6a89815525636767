import Mathlib.Tactic
import Xv6.Vm.Freewalk
import Xv6.Vm.Space

/-!
# The life of a process's page table

`proc_pagetable` and `proc_freepagetable` of `proc.c` and `uvmfree` of `vm.c`.

Main results:

- Theorem {lit}`wp_procPagetable`: a new table has the trampoline and the trapframe, and a failure
  gives everything back.
- Theorem {lit}`Space.wp_procFreepagetable`: all pages of the process become free.
-/

namespace Xv6
namespace Vm

open Lib

/-! ## The functions -/

/-- The `if` of `uvmfree`. -/
def unmapUser (K : Image) (pagetable sz : Nat) : Prog Phys Unit :=
  if 0 < sz then uvmunmap K pagetable 0 (pgroundup sz / pgsize) true else pure ()

/-- `uvmfree`. -/
def uvmfree (K : Image) (pagetable sz : Nat) : Prog Phys Unit := do
  unmapUser K pagetable sz
  freewalk K pagetable

/-- `proc_pagetable`, with the page of the trapframe. -/
def procPagetable (K : Image) (trapframe : Nat) : Prog Phys (Option Nat) := do
  match ← uvmcreate with
  | none => pure none
  | some pagetable =>
    match ← mappages pagetable trampolineVa pgsize K.trampoline (pteR ||| pteX) with
    | false =>
      uvmfree K pagetable 0
      pure none
    | true =>
      match ← mappages pagetable trapframeVa pgsize trapframe (pteR ||| pteW) with
      | false =>
        uvmunmap K pagetable trampolineVa 1 false
        uvmfree K pagetable 0
        pure none
      | true => pure (some pagetable)

/-- `proc_freepagetable`. -/
def procFreepagetable (K : Image) (pagetable sz : Nat) : Prog Phys Unit := do
  uvmunmap K pagetable trampolineVa 1 false
  uvmunmap K pagetable trapframeVa 1 false
  uvmfree K pagetable sz

/-! ## Specifications -/

/-- The trampoline and the trapframe are mapped. -/
def Tops (M : Nat → Option Nat) : Prop :=
  ∀ v, userMax ≤ v → v < npages → ∃ pte, M v = some pte ∧ pteFlags pte ≠ pteV

section Lifecycle

variable {K : Image} {s s' : Phys} {t n sz tf : Nat} {M M' : Nat → Option Nat} {A : Set Nat}
variable {E : String → Phys → Prop}

/-- The top pages stay. -/
theorem Tops.congr (h : Tops M) (hagree : Agree n M M') : Tops M' := by
  intro v hge hlt
  rw [hagree v (Or.inr hge)]
  exact h v hge hlt

/-- One page is mapped, in a table beside which other pages are owned. -/
theorem wp_mapPage {va pa perm : Nat} {Q : Bool → Phys → Prop} (h : Table s t M)
    (ho : Owns K.Ram s (pages s.mem t ∪ A)) (hA : ∀ p ∈ A, p ∉ pages s.mem t)
    (hva : va + pgsize ≤ maxva) (halign : va % pgsize = 0) (hpa : pa < 2 ^ 64)
    (hperm : perm < 2 ^ 64) (hfresh : M (va / pgsize) = none)
    (hok : ∀ s', Table s' t (fill M (va / pgsize) 1 (mapEntry pa perm)) →
      (∀ p ∈ A, p ∉ pages s'.mem t) → (∀ p ∈ A, s'.mem p = s.mem p) →
      Trade s s' (pages s.mem t ∪ A) (pages s'.mem t ∪ A) → Q true s')
    (hfail : ∀ s', Table s' t M → (∀ p ∈ A, p ∉ pages s'.mem t) →
      Trade s s' (pages s.mem t ∪ A) (pages s'.mem t ∪ A) → Q false s') :
    Wp (mappages t va pgsize pa perm) s Q E := by
  have hfree : ∀ p ∈ A, p ∉ s.free := fun p hp hf => ho.sep p hf (Or.inr hp)
  refine wp_mappages h (ho.subset Set.subset_union_left) (by decide) hva hpa hperm 1 ?_ ?_ ?_ ?_
  · unfold pgsize at *
    omega
  · intro s' hT htrade _ _
    exact hok s' hT (fun p hp => (htrade.apart (hA p hp) (hfree p hp)).1)
      (fun p hp => htrade.frame p (hA p hp) (hfree p hp)) (htrade.widen hA hfree)
  · intro s' k hk hT htrade _
    obtain rfl : k = 0 := by omega
    rw [fill_zero] at hT
    exact hfail s' hT (fun p hp => (htrade.apart (hA p hp) (hfree p hp)).1)
      (htrade.widen hA hfree)
  · intro s' v hge hlt hbad
    obtain rfl : v = va / pgsize := by omega
    exact absurd hfresh hbad

/-- A page of the upper part is unmapped and not freed. -/
theorem wp_unmapPage {v : Nat} {Q : Unit → Phys → Prop} (h : Table s t M)
    (ho : Owns K.Ram s (pages s.mem t ∪ A)) (hA : ∀ p ∈ A, p ∉ pages s.mem t)
    (hv : v < npages) (hleaf : ∃ pte, M v = some pte ∧ pteFlags pte ≠ pteV)
    (hQ : ∀ s', Table s' t (clear M v 1) → pages s'.mem t = pages s.mem t →
      Trade s s' (pages s.mem t ∪ A) (pages s'.mem t ∪ A) → Q () s') :
    Wp (uvmunmap K t (v * pgsize) 1 false) s Q E := by
  have hfreed : pages s.mem t ∪ freed false M v 1 = pages s.mem t := Set.union_empty _
  refine wp_uvmunmap h (by omega) ?_ (fun hf => by cases hf) (fun hf => by cases hf) ?_ ?_
  · rw [hfreed]
    exact ho.subset Set.subset_union_left
  · intro e s' v' hge hlt hbad
    obtain rfl : v' = v := by omega
    obtain ⟨pte, hpte, hflags⟩ := hleaf
    exact absurd (hbad pte hpte) hflags
  · intro s' hT hpages htrade _
    rw [hfreed] at htrade
    refine hQ s' hT hpages ?_
    rw [hpages]
    exact htrade.widen hA fun p hp hf => ho.sep p hf (Or.inr hp)

/-- `uvmfree` of a table without pages. -/
theorem wp_uvmfree_zero {Q : Unit → Phys → Prop} (h : Table s t M) (hM : ∀ v < npages, M v = none)
    (ho : Owns K.Ram s (pages s.mem t ∪ A)) (hA : ∀ p ∈ A, p ∉ pages s.mem t)
    (hQ : ∀ s', Trade s s' (pages s.mem t ∪ A) A → Q () s') :
    Wp (uvmfree K t 0) s Q E := by
  unfold uvmfree unmapUser
  rw [if_neg (by decide), pure_bind]
  refine wp_freewalk h hM (ho.subset Set.subset_union_left) fun s' htrade => hQ s' ?_
  have hwide := htrade.widen hA fun p hp hf => ho.sep p hf (Or.inr hp)
  rwa [Set.empty_union] at hwide

/-- A new address space has no page but those of the table. -/
theorem owned_zero (mem : Nat → Page) (t : Nat) (M : Nat → Option Nat) :
    owned mem t 0 M = pages mem t := by
  rw [owned, backing_zero, Set.union_empty]

/-- The page of the trampoline. -/
theorem trampolineVa_eq : trampolineVa = (npages - 1) * pgsize := by
  decide

/-- The page of the trapframe. -/
theorem trapframeVa_eq : trapframeVa = (npages - 2) * pgsize := by
  decide

/-- The map of a new address space. -/
theorem tops_fill {e e' : Nat → Nat} (he : pteFlags (e 0) ≠ pteV) (he' : pteFlags (e' 0) ≠ pteV) :
    Tops (fill (fill (fun _ => none) (trampolineVa / pgsize) 1 e) (trapframeVa / pgsize) 1 e') := by
  intro v hge hlt
  have hcases : v = trapframeVa / pgsize ∨ v = trampolineVa / pgsize := by
    unfold userMax npages trapframeVa trampolineVa maxva pgsize at *
    omega
  obtain rfl | rfl := hcases
  · exact ⟨e' 0, by rw [fill_of_mem (Nat.le_refl _) (Nat.lt_succ_self _), Nat.sub_self], he'⟩
  · refine ⟨e 0, ?_, he⟩
    rw [fill_of_ge (by decide), fill_of_mem (Nat.le_refl _) (Nat.lt_succ_self _), Nat.sub_self]

/-- There is nothing below. -/
theorem fill_tops_of_lt {e e' : Nat → Nat} {v : Nat} (hv : v < userMax) :
    fill (fill (fun _ => none) (trampolineVa / pgsize) 1 e) (trapframeVa / pgsize) 1 e' v =
      none := by
  have hlow : v < trapframeVa / pgsize ∧ v < trampolineVa / pgsize := by
    unfold userMax npages trapframeVa trampolineVa maxva pgsize at *
    omega
  rw [fill_of_lt hlow.1, fill_of_lt hlow.2]

/-- `proc_pagetable`, beside other pages that are owned. -/
theorem wp_procPagetable {Q : Option Nat → Phys → Prop} (ho : Owns K.Ram s A) (htf : tf < 2 ^ 64)
    (hnone : ∀ s', Trade s s' A A → Q none s')
    (hsome : ∀ t s' M, Space K s' t 0 M → Tops M → (∀ p ∈ A, p ∉ owned s'.mem t 0 M) →
      (∀ p ∈ A, s'.mem p = s.mem p) → Trade s s' A (owned s'.mem t 0 M ∪ A) → Q (some t) s') :
    Wp (procPagetable K tf) s Q E := by
  unfold procPagetable
  rw [wp_bind]
  refine wp_uvmcreate ho (fun _ => wp_pure.mpr (hnone s ho.refl)) ?_
  intro t s₁ ht hT₁ hpages₁ hsame₁ htrade₁ _
  have htramp : K.trampoline < 2 ^ 64 := by
    have hram := (htrade₁.owns ho).ok t (Or.inl (Set.mem_insert ..))
    have hlt := hram.lt
    have := hram.2.1
    have := K.trampoline_lt
    omega
  have hA₁ : ∀ p ∈ A, p ∉ pages s₁.mem t := by
    rw [hpages₁]
    exact fun p hp heq => ht (heq ▸ hp)
  have hset₁ : pages s₁.mem t ∪ A = insert t A := by rw [hpages₁, Set.singleton_union]
  have ho₁ : Owns K.Ram s₁ (pages s₁.mem t ∪ A) := hset₁ ▸ htrade₁.owns ho
  rw [← hset₁] at htrade₁
  rw [wp_bind]
  refine wp_mapPage hT₁ ho₁ hA₁ (by decide) (by decide) htramp (by decide) rfl ?_ ?_
  · intro s₂ hT₂ hA₂ hsame₂ htrade₂
    have ho₂ := htrade₂.owns ho₁
    rw [wp_bind]
    refine wp_mapPage hT₂ ho₂ hA₂ (by decide) (by decide) htf (by decide)
      (fill_of_lt (by decide)) ?_ ?_
    · intro s₃ hT₃ hA₃ hsame₃ htrade₃
      have ho₃ := htrade₃.owns ho₂
      have hcode : pteFlags (mapEntry K.trampoline (pteR ||| pteX) 0) ≠ pteV := by
        rw [mapEntry_flags (by decide)]
        decide
      have hframe : pteFlags (mapEntry tf (pteR ||| pteW) 0) ≠ pteV := by
        rw [mapEntry_flags (by decide)]
        decide
      have hflags := tops_fill hcode hframe
      refine wp_pure.mpr (hsome t s₃ _ ⟨hT₃, Nat.zero_le _, ?_, ?_, ?_, ?_, ?_⟩ hflags ?_ ?_ ?_)
      · exact fun v hv => absurd hv (Nat.not_lt_zero v)
      · exact fun v _ hv => fill_tops_of_lt hv
      · exact fun v _ _ _ hv => absurd hv (Nat.not_lt_zero v)
      · exact fun v _ hv => absurd hv (Nat.not_lt_zero v)
      · rw [owned_zero]
        exact ho₃.subset Set.subset_union_left
      · rw [owned_zero]
        exact hA₃
      · intro q hq
        rw [hsame₃ q hq, hsame₂ q hq, hsame₁ q fun heq => ht (heq ▸ hq)]
      · rw [owned_zero]
        exact (htrade₁.trans htrade₂).trans htrade₃
    · intro s₃ hT₃ hA₃ htrade₃
      have ho₃ := htrade₃.owns ho₂
      rw [wp_bind]
      nth_rewrite 1 [trampolineVa_eq]
      refine wp_unmapPage (v := npages - 1) hT₃ ho₃ hA₃ (by decide) ?_ ?_
      · refine ⟨_, fill_of_mem (by decide) (by decide), ?_⟩
        rw [show npages - 1 - trampolineVa / pgsize = 0 by decide, mapEntry_flags (by decide)]
        decide
      · intro s₄ hT₄ hpages₄ htrade₄
        rw [wp_bind]
        refine wp_uvmfree_zero hT₄ ?_ (htrade₄.owns ho₃) (by rw [hpages₄]; exact hA₃)
          fun s' htrade => ?_
        · intro v hv
          by_cases hlast : npages - 1 ≤ v
          · exact clear_of_mem hlast (by omega)
          · rw [clear_of_lt (by omega)]
            exact fill_of_lt (by unfold npages trampolineVa pgsize at *; omega)
        · exact wp_pure.mpr (hnone s' ((((htrade₁.trans htrade₂).trans htrade₃).trans htrade₄).trans
            htrade))
  · intro s₂ hT₂ hA₂ htrade₂
    rw [wp_bind]
    refine wp_uvmfree_zero hT₂ (fun _ _ => rfl) (htrade₂.owns ho₁) hA₂ fun s' htrade => ?_
    exact wp_pure.mpr (hnone s' ((htrade₁.trans htrade₂).trans htrade))

/-- `proc_freepagetable` of an address space of `n` pages. -/
theorem Space.wp_procFreepagetable {Q : Unit → Phys → Prop} (h : Space K s t n M) (htop : Tops M)
    (hsz : pgroundup sz = n * pgsize) (hzero : sz = 0 → n = 0)
    (hQ : ∀ s', Trade s s' (owned s.mem t n M) ∅ → Q () s') :
    Wp (procFreepagetable K t sz) s Q E := by
  have hsep : ∀ p ∈ backing M 0 n, p ∉ pages s.mem t := by
    rintro p ⟨v, pte, -, hlt, hpte, rfl⟩
    exact h.sep v pte (by omega) hpte
  unfold procFreepagetable
  rw [wp_bind, trampolineVa_eq, trapframeVa_eq]
  refine wp_unmapPage (v := npages - 1) h.table h.owns hsep (by decide)
    (htop _ (by decide) (by decide)) fun s₁ hT₁ hpages₁ htrade₁ => ?_
  rw [wp_bind]
  refine wp_unmapPage (v := npages - 2) hT₁ (htrade₁.owns h.owns) (by rw [hpages₁]; exact hsep)
    (by decide) ?_ fun s₂ hT₂ hpages₂ htrade₂ => ?_
  · rw [clear_of_lt (by decide)]
    exact htop _ (by decide) (by decide)
  generalize hM₂ : clear (clear M (npages - 1) 1) (npages - 2) 1 = M₂ at hT₂
  have hlow : ∀ v < userMax, M₂ v = M v := by
    intro v hv
    have hmax : v < npages - 2 := hv
    rw [← hM₂, clear_of_lt hmax, clear_of_lt (by omega)]
  have hhigh : ∀ v, userMax ≤ v → v < npages → M₂ v = Option.none := by
    intro v hge hlt
    have hmax : npages - 2 ≤ v := hge
    rw [← hM₂]
    by_cases hlast : v < npages - 2 + 1
    · exact clear_of_mem hmax hlast
    · rw [clear_of_ge (by omega)]
      exact clear_of_mem (by omega) (by omega)
  have hle := h.le
  have hback : backing M₂ 0 n = backing M 0 n := backing_congr fun v hv => hlow v (by omega)
  have hpages : pages s₂.mem t = pages s.mem t := hpages₂.trans hpages₁
  have ho₂ := htrade₂.owns (htrade₁.owns h.owns)
  have h₂ : Space K s₂ t n M₂ := by
    refine ⟨hT₂, h.le, ?_, ?_, ?_, ?_, ?_⟩
    · intro v hv
      rw [hlow v (by omega)]
      exact h.leaf v hv
    · intro v hge hlt
      rw [hlow v hlt]
      exact h.none v hge hlt
    · intro v v' pte pte' hv hv' hpte hpte'
      rw [hlow v (by omega)] at hpte
      rw [hlow v' (by omega)] at hpte'
      exact h.once v v' pte pte' hv hv' hpte hpte'
    · intro v pte hv hpte
      rw [hlow v (by omega)] at hpte
      rw [hpages]
      exact h.sep v pte hv hpte
    · rw [owned, hback]
      exact ho₂
  have htrade : Trade s s₂ (owned s.mem t n M) (owned s₂.mem t n M₂) := by
    rw [owned, owned, hback]
    exact htrade₁.trans htrade₂
  -- then the pages of the program and the tables
  have hbare : ∀ s₃ M₃, Space K s₃ t 0 M₃ → (∀ v < npages, M₃ v = Option.none) →
      Trade s s₃ (owned s.mem t n M) (owned s₃.mem t 0 M₃) → Wp (freewalk K t) s₃ Q E := by
    intro s₃ M₃ h₃ hnone htrade₃
    rw [owned_zero] at htrade₃
    refine wp_freewalk h₃.table hnone ?_ fun s' hlast => hQ s' (htrade₃.trans hlast)
    have howns := h₃.owns
    rwa [owned_zero] at howns
  unfold uvmfree unmapUser
  rw [wp_bind]
  split
  next hpos =>
    have hcount : pgroundup sz / pgsize = n - 0 := by
      rw [hsz, Nat.mul_div_cancel _ (by decide)]
      rfl
    rw [hcount, ← Nat.zero_mul pgsize]
    refine h₂.wp_uvmunmap (Nat.zero_le n) fun s₃ h₃ _ htrade₃ => ?_
    refine hbare s₃ _ h₃ (fun v hv => ?_) (htrade.trans htrade₃)
    by_cases hmax : v < userMax
    · exact h₃.none v (Nat.zero_le v) hmax
    · have hkept : clear M₂ 0 (n - 0) v = M₂ v := clear_of_ge (by omega)
      rw [hkept]
      exact hhigh v (by omega) hv
  next hsz =>
    obtain rfl := hzero (by omega)
    refine wp_pure.mpr (hbare s₂ M₂ h₂ (fun v hv => ?_) htrade)
    by_cases hmax : v < userMax
    · exact h₂.none v (Nat.zero_le v) hmax
    · exact hhigh v (by omega) hv

end Lifecycle

end Vm
end Xv6
