import Mathlib.Tactic
import Xv6.Lib.Radix
import Xv6.Vm.Phys

/-!
# Page tables

The functions of `vm.c` on a single page table.  A page table is a radix tree of page
table pages, three levels deep, whose last level holds the entries of the user's pages.

Main results:

- Theorem {lit}`Table.link`, {lit}`Table.write`: what the two kinds of stores do to the map.
- Theorem {lit}`wp_walk_find`, {lit}`wp_walk_alloc`: `walk` finds the entry of an address.
-/

namespace Xv6
namespace Vm

open Lib Function

/-! ## The functions -/

/-- `pte_t *`: an entry of a page table page. -/
structure Slot where
  page : Nat
  idx : Nat
deriving DecidableEq

/-- The loop of `walk`, from a level downwards. -/
def walkFrom (va : Nat) (alloc : Bool) : Nat → Nat → Prog Phys (Option Slot)
  | 0, pagetable => pure (some ⟨pagetable, px 0 va⟩)
  | level + 1, pagetable => do
    let pte ← load pagetable (px (level + 1) va)
    if pte &&& pteV ≠ 0 then walkFrom va alloc level (pte2pa pte)
    else if alloc = false then pure none
    else
      match ← kalloc with
      | none => pure none
      | some page =>
        memset page 0
        store pagetable (px (level + 1) va) (pa2pte page ||| pteV)
        walkFrom va alloc level page

/-- `walk`. -/
def walk (pagetable va : Nat) (alloc : Bool) : Prog Phys (Option Slot) :=
  if maxva ≤ va then throw "walk" else walkFrom va alloc 2 pagetable

/-- `walkaddr`, which returns 0 if there is no user page. -/
def walkaddr (pagetable va : Nat) : Prog Phys Nat :=
  if maxva ≤ va then pure 0
  else do
    match ← walk pagetable va false with
    | none => pure 0
    | some slot =>
      let pte ← load slot.page slot.idx
      if pte &&& pteV = 0 then pure 0
      else if pte &&& pteU = 0 then pure 0
      else pure (pte2pa pte)

/-- More rounds than any loop over addresses makes. -/
def rounds : Nat := 2 ^ 64

/-- The body of the loop of `mappages`. -/
def mapOne (pagetable last perm : Nat) : Nat × Nat → Prog Phys (Bool ⊕ Nat × Nat)
  | (a, pa) => do
    match ← walk pagetable a true with
    | none => pure (.inl false)
    | some slot =>
      let pte ← load slot.page slot.idx
      if pte &&& pteV ≠ 0 then throw "remap"
      else
        store slot.page slot.idx (pa2pte pa ||| perm ||| pteV)
        if a = last then pure (.inl true)
        else pure (.inr (u64 (a + pgsize), u64 (pa + pgsize)))

/-- `mappages`, which tells whether it has succeeded. -/
def mappages (pagetable va size pa perm : Nat) : Prog Phys Bool :=
  let last := pgrounddown (u64 (va + size + (2 ^ 64 - 1)))
  loop (mapOne pagetable last perm) rounds (pgrounddown va, pa)

/-- `if(do_free) kfree(pa)`. -/
def kfreeIf (K : Image) (doFree : Bool) (pa : Nat) : Prog Phys Unit :=
  if doFree then kfree K pa else pure ()

/-- The body of the loop of `uvmunmap`. -/
def unmapOne (K : Image) (pagetable stop : Nat) (doFree : Bool) (a : Nat) :
    Prog Phys (Unit ⊕ Nat) :=
  if a < stop then do
    match ← walk pagetable a false with
    | none => throw "uvmunmap: walk"
    | some slot =>
      let pte ← load slot.page slot.idx
      if pte &&& pteV = 0 then throw "uvmunmap: not mapped"
      else if pteFlags pte = pteV then throw "uvmunmap: not a leaf"
      else
        kfreeIf K doFree (pte2pa pte)
        store slot.page slot.idx 0
        pure (.inr (u64 (a + pgsize)))
  else pure (.inl ())

/-- `uvmunmap`. -/
def uvmunmap (K : Image) (pagetable va npages : Nat) (doFree : Bool) : Prog Phys Unit :=
  if va % pgsize ≠ 0 then throw "uvmunmap: not aligned"
  else loop (unmapOne K pagetable (u64 (va + npages * pgsize)) doFree) rounds va

/-- `uvmcreate`. -/
def uvmcreate : Prog Phys (Option Nat) := do
  match ← kalloc with
  | none => pure none
  | some pagetable =>
    memset pagetable 0
    pure (some pagetable)

/-- `uvmclear`. -/
def uvmclear (pagetable va : Nat) : Prog Phys Unit := do
  match ← walk pagetable va false with
  | none => throw "uvmclear"
  | some slot =>
    let pte ← load slot.page slot.idx
    store slot.page slot.idx (pte &&& (2 ^ 64 - 1 - pteU))

/-- `freewalk`, with a bound on the depth of the recursion. -/
def freewalkFrom (K : Image) : Nat → Nat → Prog Phys Unit
  | 0, _ => throw "freewalk: recursion"
  | n + 1, pagetable => do
    forUpto (fun i => do
      let pte ← load pagetable i
      if pte &&& pteV ≠ 0 ∧ pte &&& (pteR ||| pteW ||| pteX) = 0 then
        freewalkFrom K n (pte2pa pte)
        store pagetable i 0
      else if pte &&& pteV ≠ 0 then throw "freewalk: leaf"
      else pure ()) 512
    kfree K pagetable

def freewalk (K : Image) (pagetable : Nat) : Prog Phys Unit :=
  freewalkFrom K rounds pagetable

/-! ## The tree -/

/-- The page table page to which entry `i` of page `p` points. -/
def child (mem : Nat → Page) (p i : Nat) : Option Nat :=
  if i < 512 ∧ word (mem p) i % 2 = 1 then some (pte2pa (word (mem p) i)) else none

/-- The page table pages of the table with root `t`. -/
def pages (mem : Nat → Page) (t : Nat) : Set Nat := nodes (child mem) t 2

/-- The number of virtual pages. -/
def npages : Nat := maxva / pgsize

/-- The indices of virtual page `v` at the two upper levels. -/
def path (v : Nat) : List Nat := [v / 2 ^ 18 % 512, v / 2 ^ 9 % 512]

/-- The content of an entry of the last level. -/
def entry (pte : Nat) : Option Nat := if pte % 2 = 1 then some pte else none

/-- The valid entry of virtual page `v`. -/
def lookup (mem : Nat → Page) (t v : Nat) : Option Nat :=
  (node (child mem) t (path v)).bind fun p => entry (word (mem p) (v % 512))

/-- The page table with root `t` represents the map `M` from virtual pages to entries. -/
structure Table (s : Phys) (t : Nat) (M : Nat → Option Nat) : Prop where
  radix : Radix (child s.mem) t 2
  /-- The entries of the upper levels have no flag but `PTE_V`. -/
  plain : ∀ π p i, π.length < 2 → node (child s.mem) t π = some p → i < 512 →
    word (s.mem p) i % 2 = 1 → pteFlags (word (s.mem p) i) = pteV
  /-- The upper half of the root is for addresses from `MAXVA` on. -/
  low : ∀ i, 256 ≤ i → child s.mem t i = none
  map : ∀ v < npages, lookup s.mem t v = M v

section Table

variable {K : Image} {s s' : Phys} {t v p q i w : Nat} {M M' : Nat → Option Nat} {π : List Nat}

/-- The children are in the page itself. -/
theorem child_congr {mem mem' : Nat → Page} (h : mem' p = mem p) : child mem' p = child mem p := by
  funext i
  rw [child, child, h]

theorem path_length (v : Nat) : (path v).length = 2 := rfl

/-- The entry in the last table. -/
theorem lookup_of_node {mem : Nat → Page} (hnode : node (child mem) t (path v) = some p) :
    lookup mem t v = entry (word (mem p) (v % 512)) := by
  rw [lookup, hnode, Option.bind_some]

/-- There is no last table. -/
theorem lookup_of_none {mem : Nat → Page} (hnode : node (child mem) t (path v) = none) :
    lookup mem t v = none := by
  rw [lookup, hnode, Option.bind_none]

/-- A page table is not changed by what happens to other pages. -/
theorem Table.frame (h : Table s t M) (hmem : ∀ p ∈ pages s.mem t, s'.mem p = s.mem p) :
    Table s' t M ∧ pages s'.mem t = pages s.mem t ∧
      ∀ π, π.length ≤ 2 → node (child s'.mem) t π = node (child s.mem) t π := by
  have hchild : ∀ π p, π.length < 2 → node (child s.mem) t π = some p →
      child s'.mem p = child s.mem p :=
    fun π p hπ hnode => child_congr (hmem p ⟨π, by omega, hnode⟩)
  refine ⟨⟨h.radix.congr hchild, ?_, fun i hi => ?_, ?_⟩, nodes_congr hchild,
    fun π hπ => node_congr hchild hπ⟩
  · intro π p i hπ hnode hi hvalid
    rw [node_congr hchild (by omega)] at hnode
    rw [hmem p ⟨π, by omega, hnode⟩] at hvalid ⊢
    exact h.plain π p i hπ hnode hi hvalid
  · rw [hchild [] t (by decide) rfl]
    exact h.low i hi
  · intro v hv
    rw [← h.map v hv]
    have hsame := node_congr hchild (path_length v).le
    cases hnode : node (child s.mem) t (path v) with
    | none => rw [lookup_of_none hnode, lookup_of_none (hsame.trans hnode)]
    | some p =>
      rw [lookup_of_node hnode, lookup_of_node (hsame.trans hnode),
        hmem p ⟨path v, (path_length v).le, hnode⟩]

/-- Different virtual pages have different entries. -/
theorem path_inj {v v' : Nat} (hv : v < npages) (hv' : v' < npages) (hpath : path v = path v')
    (hidx : v % 512 = v' % 512) : v = v' := by
  unfold path at hpath
  unfold npages maxva pgsize at hv hv'
  simp only [List.cons.injEq, and_true] at hpath
  omega

/-- A store to an entry of the last level. -/
theorem Table.write (h : Table s t M) (hv : v < npages)
    (hp : node (child s.mem) t (path v) = some p) (hw : w < 2 ^ 64) :
    Table (s.write p (putLE (s.mem p) (8 * (v % 512)) 8 w)) t (update M v (entry w)) ∧
      pages (s.write p (putLE (s.mem p) (8 * (v % 512)) 8 w)).mem t = pages s.mem t := by
  have hne : ∀ {π p'}, π.length < 2 → node (child s.mem) t π = some p' → p' ≠ p := by
    rintro π p' hπ hnode rfl
    have heq := h.radix π (path v) p' (by omega) (path_length v).le hnode hp
    rw [heq, path_length] at hπ
    omega
  have hchild : ∀ π p', π.length < 2 → node (child s.mem) t π = some p' →
      child (s.write p (putLE (s.mem p) (8 * (v % 512)) 8 w)).mem p' = child s.mem p' := by
    exact fun π p' hπ hnode => child_congr (mem_write_of_ne _ _ (hne hπ hnode))
  refine ⟨⟨h.radix.congr hchild, ?_, fun i hi => ?_, ?_⟩, nodes_congr hchild⟩
  · intro π p' i hπ hnode hi hvalid
    rw [node_congr hchild (by omega)] at hnode
    rw [mem_write_of_ne _ _ (hne hπ hnode)] at hvalid ⊢
    exact h.plain π p' i hπ hnode hi hvalid
  · rw [hchild [] t (by decide) rfl]
    exact h.low i hi
  · intro v' hv'
    have hsame := node_congr hchild (path_length v').le
    obtain rfl | heq := eq_or_ne v' v
    · rw [update_self, lookup_of_node (hsame.trans hp), mem_write_same,
        word_putLE_same _ hw]
    · rw [update_of_ne heq, ← h.map v' hv']
      cases hnode : node (child s.mem) t (path v') with
      | none => rw [lookup_of_none hnode, lookup_of_none (hsame.trans hnode)]
      | some p' =>
        rw [lookup_of_node hnode, lookup_of_node (hsame.trans hnode)]
        obtain rfl | hpp := eq_or_ne p' p
        · have hpath := h.radix _ _ p' (path_length v').le (path_length v).le hnode hp
          rw [mem_write_same, word_putLE_of_ne _ fun hidx => heq (path_inj hv' hv hpath hidx)]
        · rw [mem_write_of_ne _ _ hpp]

/-- A fresh, zeroed page is linked into an upper level. -/
theorem Table.link (h : Table s t M) (hπ : π.length < 2) (hp : node (child s.mem) t π = some p)
    (hi : i < 512) (hlow : π = [] → i < 256) (hfree : word (s.mem p) i % 2 = 0)
    (hq : q ∉ pages s.mem t)
    (hram : K.Ram q) (hzero : s.mem q = fun _ => 0) :
    let s' := s.write p (putLE (s.mem p) (8 * i) 8 (pa2pte q ||| pteV))
    Table s' t M ∧ pages s'.mem t = insert q (pages s.mem t) ∧
      node (child s'.mem) t (π ++ [i]) = some q := by
  intro s'
  have hpq : q ≠ p := by
    rintro rfl
    exact hq ⟨π, by omega, hp⟩
  have hlt : pa2pte q ||| pteV < 2 ^ 64 := leaf_lt (by have := hram.lt; omega) (by decide)
  have hflags : pteFlags (pa2pte q ||| pteV) = pteV := pteFlags_leaf (by decide)
  have hvalid : (pa2pte q ||| pteV) % 2 = 1 := by
    rw [leaf_eq (by decide), pteV]
    omega
  have hpage : pte2pa (pa2pte q ||| pteV) = q := by
    rw [pte2pa_leaf (by have := hram.lt; omega) (by decide), hram.aligned]
  have hold : ∀ p', p' ≠ p → s'.mem p' = s.mem p' := fun p' => mem_write_of_ne s _
  have hhere : word (s'.mem p) i = pa2pte q ||| pteV := by
    rw [mem_write_same, word_putLE_same _ hlt]
  have hbeside : ∀ j, j ≠ i → word (s'.mem p) j = word (s.mem p) j := by
    intro j hj
    rw [mem_write_same, word_putLE_of_ne _ hj]
  have hempty : ∀ j, word (s'.mem q) j = 0 := by
    intro j
    rw [hold q hpq, hzero, word_zero]
  have hl : Link (child s.mem) (child s'.mem) t 2 p i q := by
    refine ⟨?_, hq, ?_, ?_, ?_, ?_⟩
    · simp [child, hfree]
    · simp [child, hi, hhere, hvalid, hpage]
    · intro j hj
      simp [child, hbeside j hj]
    · intro j
      simp [child, hempty j]
    · exact fun p' _ hp' => child_congr (hold p' hp')
  have hnodes := nodes_link h.radix hl hπ hp
  have hnew : node (child s'.mem) t (π ++ [i]) = some q := by
    exact (node_link h.radix hl hπ hp (by simp; omega)).1 rfl
  refine ⟨⟨h.radix.link hl hπ hp, ?_, fun j hj => ?_, ?_⟩, hnodes, hnew⟩
  · intro π' p' j hπ' hnode hj hv
    by_cases hpath : π' = π ++ [i]
    · rw [hpath, hnew] at hnode
      obtain rfl : q = p' := Option.some.inj hnode
      simp [hempty] at hv
    · rw [(node_link h.radix hl hπ hp (by omega)).2 hpath] at hnode
      obtain rfl | hpp := eq_or_ne p' p
      · by_cases hji : j = i
        · rw [hji, hhere, hflags]
        · rw [hbeside j hji] at hv ⊢
          exact h.plain π' p' j hπ' hnode hj hv
      · rw [hold p' hpp] at hv ⊢
        exact h.plain π' p' j hπ' hnode hj hv
  · have hroot := (node_link h.radix hl hπ hp (show [j].length ≤ 2 by simp)).2 fun heq => by
      obtain ⟨rfl, hji⟩ : π = [] ∧ j = i := by
        cases π with
        | nil => simpa using heq
        | cons k π => simp at heq
      have := hlow rfl
      omega
    simpa [node, h.low j hj] using hroot
  · intro v hv
    rw [← h.map v hv]
    by_cases hpath : path v = π ++ [i]
    · -- the entry was missing and is empty
      have hnone : node (child s.mem) t (path v) = none := by
        rw [hpath, node_concat, hp]
        exact hl.before
      rw [lookup_of_none hnone, lookup_of_node (hpath ▸ hnew), hempty]
      rfl
    · have hsame := (node_link h.radix hl hπ hp (path_length v).le).2 hpath
      cases hnode : node (child s.mem) t (path v) with
      | none => rw [lookup_of_none hnode, lookup_of_none (hsame.trans hnode)]
      | some p' =>
        rw [lookup_of_node hnode, lookup_of_node (hsame.trans hnode), hold]
        rintro rfl
        have heq := h.radix π (path v) p' (by omega) (path_length v).le hp hnode
        rw [heq, path_length] at hπ
        omega

end Table

/-! ## `walk` -/

/-- The indices of an address from a level downwards. -/
def indices (va : Nat) : Nat → List Nat
  | 0 => []
  | level + 1 => px (level + 1) va :: indices va level

section Walk

variable {K : Image} {s : Phys} {t p va level : Nat} {M : Nat → Option Nat} {π : List Nat}
variable {Q : Option Slot → Phys → Prop} {E : String → Phys → Prop}

theorem indices_two (va : Nat) : indices va 2 = path (va / pgsize) := by
  simp only [indices, path, px_eq, pgsize, Nat.div_div_eq_div_mul]
  norm_num

theorem px_zero (va : Nat) : px 0 va = va / pgsize % 512 := by
  simp [px_eq, pgsize]

/-- The page of an address below `MAXVA`. -/
theorem div_lt_npages (hva : va < maxva) : va / pgsize < npages := by
  unfold npages maxva pgsize at *
  omega

/-- The address of a page. -/
theorem mul_pgsize_lt {v : Nat} (hv : v < npages) : v * pgsize < maxva := by
  unfold npages maxva pgsize at *
  omega

/-- The next page. -/
theorem u64_next {v : Nat} (hv : v < npages) : u64 (v * pgsize + pgsize) = (v + 1) * pgsize := by
  unfold u64 npages maxva pgsize at *
  omega

/-- The variant of the loops over virtual pages. -/
theorem next_lt {v : Nat} (hv : v < npages) : maxva - (v + 1) * pgsize < maxva - v * pgsize := by
  unfold npages maxva pgsize at *
  omega

/-- A valid entry leads to a table. -/
theorem child_of_valid {mem : Nat → Page} {i : Nat} (hi : i < 512)
    (hvalid : word (mem p) i &&& pteV ≠ 0) : child mem p i = some (pte2pa (word (mem p) i)) := by
  rw [and_pteV] at hvalid
  exact if_pos ⟨hi, by omega⟩

/-- An invalid entry leads nowhere. -/
theorem child_of_invalid {mem : Nat → Page} {i : Nat} (hvalid : ¬word (mem p) i &&& pteV ≠ 0) :
    child mem p i = none := by
  rw [and_pteV] at hvalid
  exact if_neg fun h => hvalid (by omega)

/-- `walk` without allocation. -/
theorem wp_walkFrom_find (hQ : Q ((node (child s.mem) p (indices va level)).map (⟨·, px 0 va⟩)) s) :
    Wp (walkFrom va false level p) s Q E := by
  induction level generalizing p with
  | zero => exact wp_pure.mpr hQ
  | succ level ih =>
    unfold walkFrom
    rw [wp_bind, wp_load]
    rw [indices, node] at hQ
    split
    next hvalid =>
      rw [child_of_valid (px_lt _ _) hvalid, Option.bind_some] at hQ
      exact ih hQ
    next hinvalid =>
      rw [child_of_invalid hinvalid, Option.bind_none] at hQ
      rw [if_pos rfl, wp_pure]
      exact hQ

/-- `walk` without allocation finds the entry of an address, or tells that there is no
page for it. -/
theorem wp_walk_find (hva : va < maxva)
    (hQ : Q ((node (child s.mem) t (path (va / pgsize))).map (⟨·, va / pgsize % 512⟩)) s) :
    Wp (walk t va false) s Q E := by
  unfold walk
  rw [if_neg (by omega)]
  apply wp_walkFrom_find
  rw [indices_two, px_zero]
  exact hQ

/-- `walk` that allocates the tables it lacks. -/
theorem wp_walkFrom_alloc (h : Table s t M) (ho : Owns K.Ram s (pages s.mem t)) (hva : va < maxva)
    (hπ : π.length + level = 2) (hp : node (child s.mem) t π = some p)
    (hnone : ∀ s', Table s' t M → Trade s s' (pages s.mem t) (pages s'.mem t) → s'.free = [] →
      Q none s')
    (hsome : ∀ s' q, Table s' t M → Trade s s' (pages s.mem t) (pages s'.mem t) →
      s'.free <:+ s.free → node (child s'.mem) t (π ++ indices va level) = some q →
      Q (some ⟨q, px 0 va⟩) s') : Wp (walkFrom va true level p) s Q E := by
  induction level generalizing s p π with
  | zero =>
    refine wp_pure.mpr (hsome s p h ho.refl (List.suffix_refl _) ?_)
    simpa [indices] using hp
  | succ level ih =>
    unfold walkFrom
    rw [wp_bind, wp_load]
    have hstep : ∀ {mem' : Nat → Page} {q : Nat}, node (child mem') t
        ((π ++ [px (level + 1) va]) ++ indices va level) = some q →
        node (child mem') t (π ++ indices va (level + 1)) = some q := by
      intro mem' q hq
      simpa [indices] using hq
    have hlen : (π ++ [px (level + 1) va]).length + level = 2 := by
      simp only [List.length_append, List.length_singleton]
      omega
    split
    next hvalid =>
      refine ih h ho hlen ?_ hnone fun s' q hT htrade hsuf hq =>
        hsome s' q hT htrade hsuf (hstep hq)
      rw [node_concat, hp]
      exact child_of_valid (px_lt _ _) hvalid
    next hinvalid =>
      rw [if_neg (by simp), wp_bind]
      refine wp_kalloc ho (fun hempty => wp_pure.mpr (hnone s h ho.refl hempty)) ?_
      intro q s₁ hq hfree hsame htake
      rw [wp_bind, wp_memset, wp_bind, wp_store]
      -- the new page is zeroed and linked in
      have ho₁ := htake.owns ho
      have hne : ∀ p' ∈ pages s.mem t, p' ≠ q := fun p' hp' heq => hq (heq ▸ hp')
      have hzero : Trade s (s₁.write q fun _ => 0) (pages s.mem t) (insert q (pages s.mem t)) :=
        htake.trans (ho₁.write (Set.mem_insert ..))
      have hframe := h.frame (show ∀ p' ∈ pages s.mem t, (s₁.write q fun _ => 0).mem p' = s.mem p'
        from fun p' hp' => by rw [mem_write_of_ne _ _ (hne p' hp'), hsame p' (hne p' hp')])
      obtain ⟨hT, hpages, hnode⟩ := hframe
      have hp₁ : node (child (s₁.write q fun _ => 0).mem) t π = some p := by
        rw [hnode π (by omega), hp]
      have hmem : p ∈ pages s.mem t := ⟨π, by omega, hp⟩
      have hword : word ((s₁.write q fun _ => 0).mem p) (px (level + 1) va) % 2 = 0 := by
        rw [mem_write_of_ne _ _ (hne p hmem), hsame p (hne p hmem)]
        rw [and_pteV] at hinvalid
        omega
      have hram : K.Ram q := ho.ok q (Or.inr (by simp [hfree]))
      have hlow : π = [] → px (level + 1) va < 256 := by
        rintro rfl
        obtain rfl : level = 1 := by simpa using hπ
        rw [px_eq]
        unfold maxva at hva
        omega
      obtain ⟨hT', hpages', hnode'⟩ := hT.link (by omega) hp₁ (px_lt _ _) hlow hword
        (by rw [hpages]; exact hq) hram (mem_write_same ..)
      rw [hpages] at hpages'
      have hlink := (hzero.owns ho).write (v := putLE ((s₁.write q fun _ => 0).mem p)
        (8 * px (level + 1) va) 8 (pa2pte q ||| pteV)) (Set.mem_insert_of_mem q hmem)
      have htrade := hzero.trans hlink
      rw [← hpages'] at htrade
      refine ih hT' (htrade.owns ho) hlen hnode' (fun s' hTs ht hempty => ?_) ?_
      · exact hnone s' hTs (htrade.trans ht) hempty
      · intro s' q' hTs ht hsuf hq'
        refine hsome s' q' hTs (htrade.trans ht) ?_ (hstep hq')
        rw [hfree]
        exact hsuf.trans (List.suffix_cons q s₁.free)

/-- `walk` with allocation finds the entry of an address, or the kernel is out of pages. -/
theorem wp_walk_alloc (h : Table s t M) (ho : Owns K.Ram s (pages s.mem t)) (hva : va < maxva)
    (hnone : ∀ s', Table s' t M → Trade s s' (pages s.mem t) (pages s'.mem t) → s'.free = [] →
      Q none s')
    (hsome : ∀ s' q, Table s' t M → Trade s s' (pages s.mem t) (pages s'.mem t) →
      s'.free <:+ s.free → node (child s'.mem) t (path (va / pgsize)) = some q →
      Q (some ⟨q, va / pgsize % 512⟩) s') : Wp (walk t va true) s Q E := by
  unfold walk
  rw [if_neg (by omega)]
  have hroot : node (child s.mem) t [] = some t := rfl
  refine wp_walkFrom_alloc h ho hva rfl hroot hnone fun s' q hT htrade hsuf hq => ?_
  rw [List.nil_append, indices_two] at hq
  rw [px_zero]
  exact hsome s' q hT htrade hsuf hq

end Walk

/-! ## `mappages` -/

/-- The map with `n` pages from `first` on set to the entries `f`. -/
def fill (M : Nat → Option Nat) (first n : Nat) (f : Nat → Nat) : Nat → Option Nat := fun v =>
  if first ≤ v ∧ v < first + n then some (f (v - first)) else M v

/-- The entries that `mappages` writes. -/
def mapEntry (pa perm j : Nat) : Nat := pa2pte (u64 (pa + j * pgsize)) ||| perm ||| pteV

section Fill

variable {M : Nat → Option Nat} {first n v : Nat} {f : Nat → Nat}

/-- No page. -/
@[simp]
theorem fill_zero : fill M first 0 f = M := by
  funext v
  exact if_neg (by omega)

/-- Below the range. -/
theorem fill_of_lt (hv : v < first) : fill M first n f v = M v :=
  if_neg (by omega)

/-- Above the range. -/
theorem fill_of_ge (hv : first + n ≤ v) : fill M first n f v = M v :=
  if_neg (by omega)

/-- In the range. -/
theorem fill_of_mem (hge : first ≤ v) (hlt : v < first + n) :
    fill M first n f v = some (f (v - first)) :=
  if_pos ⟨hge, hlt⟩

/-- One more page. -/
theorem fill_succ : update (fill M first n f) (first + n) (some (f n)) =
    fill M first (n + 1) f := by
  funext v
  by_cases hv : v = first + n
  · subst hv
    rw [update_self, fill_of_mem (by omega) (by omega), Nat.add_sub_cancel_left]
  · rw [update_of_ne hv]
    unfold fill
    by_cases hin : first ≤ v ∧ v < first + n
    · rw [if_pos hin, if_pos ⟨hin.1, by omega⟩]
    · rw [if_neg hin, if_neg (by omega)]

/-- The entry that `mappages` writes is a word. -/
theorem mapEntry_lt {pa perm : Nat} (hpa : pa < 2 ^ 64) (hperm : perm < 2 ^ 64) :
    pa2pte pa ||| perm ||| pteV < 2 ^ 64 := by
  refine Nat.or_lt_two_pow (Nat.or_lt_two_pow ?_ hperm) (by decide)
  simpa using leaf_lt hpa (show 0 < 1024 by decide)

/-- It is valid. -/
theorem mapEntry_valid (pa perm : Nat) : (pa2pte pa ||| perm ||| pteV) % 2 = 1 := by
  have hodd : (pa2pte pa ||| perm ||| pteV).testBit 0 = true := by
    simp [pteV]
  simpa [Nat.testBit_zero] using hodd

/-- A valid word is an entry. -/
theorem entry_of_valid {w : Nat} (hw : w % 2 = 1) : entry w = some w :=
  if_pos hw

/-- An invalid word is none. -/
theorem entry_of_invalid {w : Nat} (hw : ¬w % 2 = 1) : entry w = none :=
  if_neg hw

end Fill

section Mappages

variable {K : Image} {s : Phys} {t va size pa perm : Nat} {M : Nat → Option Nat}
variable {Q : Bool → Phys → Prop} {E : String → Phys → Prop}

theorem pgrounddown_eq (a : Nat) : pgrounddown a = a / pgsize * pgsize := rfl

/-- One round of `mappages`, at virtual page `v`. -/
theorem wp_mapOne {v last : Nat} {Q : Bool ⊕ Nat × Nat → Phys → Prop} (h : Table s t M)
    (ho : Owns K.Ram s (pages s.mem t)) (hv : v < npages) (hpa : pa < 2 ^ 64)
    (hperm : perm < 2 ^ 64)
    (hfail : ∀ s', Table s' t M → Trade s s' (pages s.mem t) (pages s'.mem t) → s'.free = [] →
      Q (.inl false) s')
    (hremap : ∀ s', M v ≠ none → E "remap" s')
    (hok : ∀ s', M v = none → Table s' t (update M v (some (pa2pte pa ||| perm ||| pteV))) →
      Trade s s' (pages s.mem t) (pages s'.mem t) → s'.free <:+ s.free →
      Q (if v * pgsize = last then .inl true
        else .inr (u64 (v * pgsize + pgsize), u64 (pa + pgsize))) s') :
    Wp (mapOne t last perm (v * pgsize, pa)) s Q E := by
  have hva := mul_pgsize_lt hv
  have hdiv : v * pgsize / pgsize = v := Nat.mul_div_cancel _ (by decide)
  unfold mapOne
  rw [wp_bind]
  refine wp_walk_alloc h ho hva (fun s₁ hT ht hempty => wp_pure.mpr (hfail s₁ hT ht hempty)) ?_
  intro s₁ q hT ht hsuf hq
  rw [hdiv] at hq ⊢
  have hentry := hT.map v hv
  rw [lookup_of_node hq] at hentry
  rw [wp_bind, wp_load]
  dsimp only
  rw [and_pteV]
  split
  next hvalid =>
    rw [wp_throw]
    refine hremap s₁ ?_
    rw [← hentry, entry_of_valid (by omega)]
    simp
  next hinvalid =>
    rw [entry_of_invalid (by omega)] at hentry
    obtain ⟨hT', hpages⟩ := hT.write hv hq (mapEntry_lt hpa hperm)
    rw [entry_of_valid (mapEntry_valid pa perm)] at hT'
    have hwrite := ht.trans ((ht.owns ho).write (v := putLE (s₁.mem q) (8 * (v % 512)) 8
      (pa2pte pa ||| perm ||| pteV)) ⟨path v, (path_length v).le, hq⟩)
    rw [← hpages] at hwrite
    have hnext := hok _ hentry.symm hT' hwrite hsuf
    rw [wp_bind, wp_store]
    split
    next hend => exact wp_pure.mpr (by rwa [if_pos hend] at hnext)
    next hend => exact wp_pure.mpr (by rwa [if_neg hend] at hnext)

/-- `mappages` adds the pages of a range, or fewer if the kernel runs out of pages. -/
theorem wp_mappages (h : Table s t M) (ho : Owns K.Ram s (pages s.mem t)) (hsize : 0 < size)
    (hva : va + size ≤ maxva) (hpa : pa < 2 ^ 64) (hperm : perm < 2 ^ 64) (n : Nat)
    (hn : va / pgsize + n = (va + size - 1) / pgsize + 1)
    (hok : ∀ s', Table s' t (fill M (va / pgsize) n (mapEntry pa perm)) →
      Trade s s' (pages s.mem t) (pages s'.mem t) → s'.free <:+ s.free →
      (∀ v, va / pgsize ≤ v → v < va / pgsize + n → M v = none) → Q true s')
    (hfail : ∀ s' k, k < n → Table s' t (fill M (va / pgsize) k (mapEntry pa perm)) →
      Trade s s' (pages s.mem t) (pages s'.mem t) → s'.free = [] → Q false s')
    (hremap : ∀ s' v, va / pgsize ≤ v → v < va / pgsize + n → M v ≠ none → E "remap" s') :
    Wp (mappages t va size pa perm) s Q E := by
  generalize hfirst : va / pgsize = first at *
  have hdiv : u64 (va + size + (2 ^ 64 - 1)) / pgsize = first + n - 1 := by
    unfold u64 maxva pgsize at *
    omega
  have hbound : first + n ≤ npages := by
    unfold npages maxva pgsize at *
    omega
  have hpos : 0 < n := by
    unfold pgsize at *
    omega
  unfold mappages
  simp only [pgrounddown_eq, hdiv, hfirst]
  -- after `k` rounds the first `k` pages are mapped, and none of them was before
  refine wp_loop (fun b s' => ∃ k < n, b = ((first + k) * pgsize, u64 (pa + k * pgsize)) ∧
      Table s' t (fill M first k (mapEntry pa perm)) ∧
      Trade s s' (pages s.mem t) (pages s'.mem t) ∧ s'.free <:+ s.free ∧
      ∀ v, first ≤ v → v < first + k → M v = none)
    (fun b _ => maxva - b.1) ?_ ?_ ?_
  · rintro b s₁ ⟨k, hk, rfl, hT, htrade, hsuf, hnone⟩
    have hold : fill M first k (mapEntry pa perm) (first + k) = M (first + k) :=
      fill_of_ge (Nat.le_refl _)
    refine wp_mapOne hT (htrade.owns ho) (by omega) (Nat.mod_lt _ (by norm_num)) hperm ?_ ?_ ?_
    · exact fun s₂ hT₂ ht₂ hempty => hfail s₂ k hk hT₂ (htrade.trans ht₂) hempty
    · intro s₂ hne
      exact hremap s₂ (first + k) (by omega) (by omega) (hold ▸ hne)
    · intro s₂ hfree hT₂ ht₂ hsuf₂
      have hT₃ : Table s₂ t (fill M first (k + 1) (mapEntry pa perm)) := by
        rw [← fill_succ]
        exact hT₂
      have hnone₃ : ∀ v, first ≤ v → v < first + (k + 1) → M v = none := by
        intro v hge hlt
        rcases Nat.lt_or_ge v (first + k) with hvk | hvk
        · exact hnone v hge hvk
        · rw [show v = first + k by omega, ← hold, hfree]
      by_cases hend : k + 1 = n
      · subst hend
        rw [if_pos (by rw [show first + (k + 1) - 1 = first + k by omega])]
        exact hok s₂ hT₃ (htrade.trans ht₂) (hsuf₂.trans hsuf) hnone₃
      · rw [if_neg fun heq => hend (by
          have := Nat.eq_of_mul_eq_mul_right (by decide) heq
          omega)]
        rw [u64_next (by omega)]
        refine ⟨⟨k + 1, by omega, ?_, hT₃, htrade.trans ht₂, hsuf₂.trans hsuf, hnone₃⟩,
          next_lt (by omega)⟩
        rw [Nat.add_assoc, u64, u64, u64, Nat.mod_add_mod, Nat.add_assoc pa, ← Nat.succ_mul]
  · refine ⟨0, hpos, ?_, by simpa using h, ho.refl, List.suffix_refl _, fun v hge hlt => ?_⟩
    · rw [Nat.add_zero, Nat.zero_mul, Nat.add_zero, u64, Nat.mod_eq_of_lt hpa]
    · omega
  · unfold rounds maxva
    dsimp only
    omega

end Mappages

/-! ## `uvmunmap` -/

/-- The map without `n` pages from `first` on. -/
def clear (M : Nat → Option Nat) (first n : Nat) : Nat → Option Nat := fun v =>
  if first ≤ v ∧ v < first + n then none else M v

/-- The physical pages of `n` virtual pages from `first` on. -/
def backing (M : Nat → Option Nat) (first n : Nat) : Set Nat :=
  {pa | ∃ v pte, first ≤ v ∧ v < first + n ∧ M v = some pte ∧ pte2pa pte = pa}

/-- The pages that `uvmunmap` frees. -/
def freed (doFree : Bool) (M : Nat → Option Nat) (first n : Nat) : Set Nat :=
  if doFree then backing M first n else ∅

section Clear

variable {M : Nat → Option Nat} {first n v : Nat}

/-- No page. -/
@[simp]
theorem clear_zero : clear M first 0 = M := by
  funext v
  exact if_neg (by omega)

/-- Above the range. -/
theorem clear_of_ge (hv : first + n ≤ v) : clear M first n v = M v :=
  if_neg (by omega)

/-- Below the range. -/
theorem clear_of_lt (hv : v < first) : clear M first n v = M v :=
  if_neg (by omega)

/-- In the range. -/
theorem clear_of_mem (hge : first ≤ v) (hlt : v < first + n) : clear M first n v = none :=
  if_pos ⟨hge, hlt⟩

/-- One more page. -/
theorem clear_succ : update (clear M first n) (first + n) none =
    clear M first (n + 1) := by
  funext v
  by_cases hv : v = first + n
  · subst hv
    rw [update_self, clear_of_mem (by omega) (by omega)]
  · rw [update_of_ne hv]
    unfold clear
    by_cases hin : first ≤ v ∧ v < first + n
    · rw [if_pos hin, if_pos ⟨hin.1, by omega⟩]
    · rw [if_neg hin, if_neg (by omega)]

/-- No page. -/
theorem backing_zero : backing M first 0 = ∅ := by
  ext pa
  refine iff_of_false ?_ (Set.notMem_empty pa)
  rintro ⟨v, pte, hge, hlt, -⟩
  omega

/-- The first page. -/
theorem backing_cons {pte : Nat} (hM : M first = some pte) :
    backing M first (n + 1) = insert (pte2pa pte) (backing M (first + 1) n) := by
  ext pa
  constructor
  · rintro ⟨v, pte', hge, hlt, hM', hpa⟩
    obtain rfl | hv := eq_or_ne v first
    · cases hM.symm.trans hM'
      exact Or.inl hpa.symm
    · exact Or.inr ⟨v, pte', by omega, by omega, hM', hpa⟩
  · rintro (rfl | ⟨v, pte', hge, hlt, hM', hpa⟩)
    · exact ⟨first, pte, Nat.le_refl _, by omega, hM, rfl⟩
    · exact ⟨v, pte', by omega, by omega, hM', hpa⟩

end Clear

section Uvmunmap

variable {K : Image} {s : Phys} {t va v pte stop : Nat} {M : Nat → Option Nat} {doFree : Bool}
variable {A : Set Nat} {E : String → Phys → Prop}

/-- Free a page, or keep it. -/
theorem wp_kfreeIf {pa : Nat} {Q : Unit → Phys → Prop}
    (ho : Owns K.Ram s (if doFree then insert pa A else A)) (hpa : doFree = true → pa ∉ A)
    (hQ : ∀ s', (∀ q ∈ A, s'.mem q = s.mem q) → Trade s s' (if doFree then insert pa A else A) A →
      Q () s') : Wp (kfreeIf K doFree pa) s Q E := by
  unfold kfreeIf
  cases doFree with
  | false => exact wp_pure.mpr (hQ s (fun _ _ => rfl) ho.refl)
  | true =>
    refine wp_kfree ho (hpa rfl) fun s' _ hsame htrade => hQ s' (fun q hq => hsame q ?_) htrade
    exact fun heq => hpa rfl (heq ▸ hq)

/-- One round of `uvmunmap`, at virtual page `v`. -/
theorem wp_unmapOne {Q : Unit ⊕ Nat → Phys → Prop} (h : Table s t M) (hv : v < npages)
    (hstop : v * pgsize < stop) (hA : pages s.mem t ⊆ A)
    (ho : ∀ pte, M v = some pte → pteFlags pte ≠ pteV →
      Owns K.Ram s (if doFree then insert (pte2pa pte) A else A) ∧ (doFree = true → pte2pa pte ∉ A))
    (hE : ∀ e s', (∀ pte, M v = some pte → pteFlags pte = pteV) → E e s')
    (hQ : ∀ s' pte, M v = some pte → pteFlags pte ≠ pteV → Table s' t (update M v none) →
      pages s'.mem t = pages s.mem t → Trade s s' (if doFree then insert (pte2pa pte) A else A) A →
      (∀ q ∈ A, q ∉ pages s.mem t → s'.mem q = s.mem q) →
      Q (.inr (u64 (v * pgsize + pgsize))) s') :
    Wp (unmapOne K t stop doFree (v * pgsize)) s Q E := by
  have hva := mul_pgsize_lt hv
  have hdiv : v * pgsize / pgsize = v := Nat.mul_div_cancel _ (by decide)
  unfold unmapOne
  rw [if_pos hstop, wp_bind]
  apply wp_walk_find hva
  rw [hdiv]
  have hmap := h.map v hv
  cases hq : node (child s.mem) t (path v) with
  | none =>
    rw [lookup_of_none hq] at hmap
    exact wp_throw.mpr (hE _ _ fun pte hpte => by rw [← hmap] at hpte; cases hpte)
  | some q =>
    rw [lookup_of_node hq] at hmap
    change Wp (load q (v % 512) >>= _) s Q E
    rw [wp_bind, wp_load, and_pteV]
    dsimp only
    split
    next hinvalid =>
      rw [entry_of_invalid (by omega)] at hmap
      exact wp_throw.mpr (hE _ _ fun pte hpte => by rw [← hmap] at hpte; cases hpte)
    next hvalid =>
      rw [entry_of_valid (by omega)] at hmap
      split
      next hflags =>
        refine wp_throw.mpr (hE _ _ fun pte hpte => ?_)
        obtain rfl := Option.some.inj (hmap.trans hpte)
        exact hflags
      next hflags =>
        obtain ⟨hown, hpa⟩ := ho _ hmap.symm hflags
        rw [wp_bind]
        refine wp_kfreeIf hown hpa fun s₁ hsame htrade => ?_
        obtain ⟨hT, hpages, hnode⟩ := h.frame fun p hp => hsame p (hA hp)
        have hq₁ : node (child s₁.mem) t (path v) = some q := by
          rw [hnode _ (path_length v).le, hq]
        obtain ⟨hT', hpages'⟩ := hT.write hv hq₁ (show 0 < 2 ^ 64 by norm_num)
        rw [entry_of_invalid (by decide)] at hT'
        have hqA : q ∈ A := hA ⟨path v, (path_length v).le, hq⟩
        rw [wp_bind, wp_store, wp_pure]
        refine hQ _ _ hmap.symm hflags hT' (hpages'.trans hpages)
          (htrade.trans ((htrade.owns hown).write hqA)) fun p hp hnot => ?_
        rw [mem_write_of_ne _ _ fun heq => hnot ⟨path v, (path_length v).le, by rw [heq, hq]⟩,
          hsame p hp]

/-- `uvmunmap` removes a range of pages. -/
theorem wp_uvmunmap {first n : Nat} {Q : Unit → Phys → Prop} (h : Table s t M)
    (hn : first + n ≤ npages) (ho : Owns K.Ram s (pages s.mem t ∪ freed doFree M first n))
    (hinj : doFree = true → ∀ v v' pte pte', first ≤ v → v < first + n → first ≤ v' →
      v' < first + n → M v = some pte → M v' = some pte' → pte2pa pte = pte2pa pte' → v = v')
    (hsep : doFree = true → ∀ v pte, first ≤ v → v < first + n → M v = some pte →
      pte2pa pte ∉ pages s.mem t)
    (hE : ∀ e s' v, first ≤ v → v < first + n → (∀ pte, M v = some pte → pteFlags pte = pteV) →
      E e s')
    (hQ : ∀ s', Table s' t (clear M first n) → pages s'.mem t = pages s.mem t →
      Trade s s' (pages s.mem t ∪ freed doFree M first n) (pages s.mem t) →
      (∀ v, first ≤ v → v < first + n → ∃ pte, M v = some pte ∧ pteFlags pte ≠ pteV) → Q () s') :
    Wp (uvmunmap K t (first * pgsize) n doFree) s Q E := by
  unfold uvmunmap
  rw [if_neg (by simp)]
  have hstop : u64 (first * pgsize + n * pgsize) = (first + n) * pgsize := by
    unfold u64 npages maxva pgsize at *
    omega
  rw [hstop]
  -- after `k` rounds the first `k` pages are gone and those behind are still owned
  refine wp_loop (fun a s' => ∃ k ≤ n, a = (first + k) * pgsize ∧ Table s' t (clear M first k) ∧
      pages s'.mem t = pages s.mem t ∧
      Trade s s' (pages s.mem t ∪ freed doFree M first n)
        (pages s.mem t ∪ freed doFree M (first + k) (n - k)) ∧
      ∀ v, first ≤ v → v < first + k → ∃ pte, M v = some pte ∧ pteFlags pte ≠ pteV)
    (fun a _ => maxva - a) ?_ ?_ ?_
  · rintro a s₁ ⟨k, hk, rfl, hT, hpages, htrade, hleaves⟩
    obtain rfl | hkn := eq_or_ne k n
    · unfold unmapOne
      rw [if_neg (by omega), wp_pure]
      refine hQ s₁ hT hpages ?_ hleaves
      simpa [freed, backing_zero] using htrade
    · have hold : clear M first k (first + k) = M (first + k) := clear_of_ge (Nat.le_refl _)
      have hgrab : ∀ pte, M (first + k) = some pte →
          (pages s.mem t ∪ freed doFree M (first + k) (n - k)) =
            if doFree then
              insert (pte2pa pte) (pages s.mem t ∪ freed doFree M (first + k + 1) (n - k - 1))
            else pages s.mem t ∪ freed doFree M (first + k + 1) (n - k - 1) := by
        intro pte hpte
        cases doFree with
        | false => simp [freed]
        | true =>
          have := backing_cons (n := n - k - 1) hpte
          rw [show n - k - 1 + 1 = n - k by omega] at this
          simp [freed, this, Set.union_insert]
      refine wp_unmapOne (A := pages s.mem t ∪ freed doFree M (first + k + 1) (n - k - 1)) hT
        (by omega) ?_ ?_ ?_ ?_ ?_
      · exact Nat.mul_lt_mul_of_pos_right (by omega) (by decide)
      · rw [hpages]
        exact Set.subset_union_left
      · intro pte hpte hflags
        rw [hold] at hpte
        refine ⟨hgrab pte hpte ▸ htrade.owns ho, fun hfree => ?_⟩
        rintro (hpa | hpa)
        · exact hsep hfree (first + k) pte (by omega) (by omega) hpte hpa
        · rw [freed, if_pos hfree] at hpa
          obtain ⟨v', pte', hge, hlt, hM', heq⟩ := hpa
          have := hinj hfree v' (first + k) pte' pte (by omega) (by omega) (by omega) (by omega) hM'
            hpte heq
          omega
      · intro e s' hbad
        exact hE e s' (first + k) (by omega) (by omega) (hold ▸ hbad)
      · intro s₂ pte hpte hflags hT₂ hpages₂ ht₂ _
        rw [hold] at hpte
        rw [← hgrab pte hpte] at ht₂
        rw [u64_next (by omega)]
        refine ⟨⟨k + 1, by omega, rfl, clear_succ ▸ hT₂, hpages₂.trans hpages, htrade.trans ht₂,
          fun v hge hlt => ?_⟩, next_lt (by omega)⟩
        rcases Nat.lt_or_ge v (first + k) with hvk | hvk
        · exact hleaves v hge hvk
        · exact ⟨pte, by rw [show v = first + k by omega, hpte], hflags⟩
  · exact ⟨0, Nat.zero_le n, rfl, by simpa using h, rfl, ho.refl, fun v hge hlt => by omega⟩
  · unfold rounds maxva
    omega

end Uvmunmap

/-! ## `uvmcreate`, `uvmclear` and `walkaddr` -/

/-- An entry without `PTE_U`. -/
def clearU (pte : Nat) : Nat := pte &&& (2 ^ 64 - 1 - pteU)

/-- The result of `walkaddr` for an entry. -/
def userPa : Option Nat → Nat
  | none => 0
  | some pte => if pte &&& pteU = 0 then 0 else pte2pa pte

section Small

variable {K : Image} {s : Phys} {t p va : Nat} {M : Nat → Option Nat} {A : Set Nat}
variable {E : String → Phys → Prop}

/-- A zeroed page is an empty page table. -/
theorem table_zero (hzero : s.mem p = fun _ => 0) :
    Table s p (fun _ => none) ∧ pages s.mem p = {p} := by
  have hchild : ∀ i, child s.mem p i = none := fun i => by simp [child, hzero, word_zero]
  have hnode : ∀ {π q}, node (child s.mem) p π = some q → π = [] ∧ q = p := by
    rintro (_ | ⟨i, π⟩) q hq
    · exact ⟨rfl, (Option.some.inj hq).symm⟩
    · rw [node, hchild] at hq
      cases hq
  refine ⟨⟨fun π π' q _ _ hq hq' => ?_, fun π q i _ hq _ hvalid => ?_, fun i _ => hchild i,
    fun v _ => ?_⟩, ?_⟩
  · rw [(hnode hq).1, (hnode hq').1]
  · rw [(hnode hq).2, hzero, word_zero] at hvalid
    cases hvalid
  · apply lookup_of_none
    rw [path, node, hchild]
    rfl
  · ext q
    constructor
    · rintro ⟨π, -, hq⟩
      exact (hnode hq).2
    · rintro rfl
      exact root_mem_nodes

/-- `uvmcreate` makes an empty page table. -/
theorem wp_uvmcreate {Q : Option Nat → Phys → Prop} (ho : Owns K.Ram s A)
    (hnone : s.free = [] → Q none s)
    (hsome : ∀ p s', p ∉ A → Table s' p (fun _ => none) → pages s'.mem p = {p} →
      (∀ q, q ≠ p → s'.mem q = s.mem q) → Trade s s' A (insert p A) → s'.free <:+ s.free →
      Q (some p) s') : Wp uvmcreate s Q E := by
  unfold uvmcreate
  rw [wp_bind]
  refine wp_kalloc ho (fun hfree => wp_pure.mpr (hnone hfree)) fun p s' hp hfree hsame htake => ?_
  rw [wp_bind, wp_memset, wp_pure]
  obtain ⟨hT, hpages⟩ := table_zero (mem_write_same s' p fun _ => 0)
  refine hsome p _ hp hT hpages (fun q hq => ?_) ?_ ?_
  · rw [mem_write_of_ne _ _ hq, hsame q hq]
  · exact htake.trans ((htake.owns ho).write (Set.mem_insert ..))
  · rw [hfree]
    exact List.suffix_cons p s'.free

theorem clearU_lt (pte : Nat) : clearU pte < 2 ^ 64 :=
  lt_of_le_of_lt Nat.and_le_right (by decide)

theorem clearU_mod_two (pte : Nat) : clearU pte % 2 = pte % 2 := by
  have hbit : (clearU pte).testBit 0 = pte.testBit 0 := by
    rw [clearU, Nat.testBit_and]
    simp [pteU]
  rw [Nat.testBit_zero, Nat.testBit_zero, decide_eq_decide] at hbit
  omega

/-- `uvmclear` keeps an entry valid. -/
theorem entry_clearU (pte : Nat) : entry (clearU pte) = (entry pte).map clearU := by
  unfold entry
  rw [clearU_mod_two]
  split <;> rfl

/-- `uvmclear` takes `PTE_U` from one page. -/
theorem wp_uvmclear {Q : Unit → Phys → Prop} (h : Table s t M)
    (ho : Owns K.Ram s (pages s.mem t)) (hva : va < maxva)
    (hE : M (va / pgsize) = none → E "uvmclear" s)
    (hQ : ∀ s', Table s' t (update M (va / pgsize) ((M (va / pgsize)).map clearU)) →
      pages s'.mem t = pages s.mem t → Trade s s' (pages s.mem t) (pages s.mem t) → Q () s') :
    Wp (uvmclear t va) s Q E := by
  have hv := div_lt_npages hva
  have hmap := h.map _ hv
  unfold uvmclear
  rw [wp_bind]
  apply wp_walk_find hva
  cases hq : node (child s.mem) t (path (va / pgsize)) with
  | none =>
    rw [lookup_of_none hq] at hmap
    exact wp_throw.mpr (hE hmap.symm)
  | some q =>
    rw [lookup_of_node hq] at hmap
    change Wp (load q (va / pgsize % 512) >>= _) s Q E
    rw [wp_bind, wp_load, wp_store]
    dsimp only
    obtain ⟨hT, hpages⟩ := h.write hv hq (clearU_lt (word (s.mem q) (va / pgsize % 512)))
    rw [entry_clearU, hmap] at hT
    exact hQ _ hT hpages (ho.write ⟨path (va / pgsize), (path_length _).le, hq⟩)

/-- `walkaddr` returns the page of a user address, whatever the tables look like. -/
theorem wp_walkaddr_lookup {Q : Nat → Phys → Prop}
    (hQ : Q (if maxva ≤ va then 0 else userPa (lookup s.mem t (va / pgsize))) s) :
    Wp (walkaddr t va) s Q E := by
  unfold walkaddr
  split
  next hge =>
    rw [if_pos hge] at hQ
    exact wp_pure.mpr hQ
  next hlt =>
    rw [if_neg hlt] at hQ
    rw [wp_bind]
    apply wp_walk_find (by omega)
    cases hq : node (child s.mem) t (path (va / pgsize)) with
    | none =>
      rw [lookup_of_none hq] at hQ
      exact wp_pure.mpr hQ
    | some q =>
      rw [lookup_of_node hq] at hQ
      change Wp (load q (va / pgsize % 512) >>= _) s Q E
      rw [wp_bind, wp_load, and_pteV]
      split
      next hinvalid =>
        rw [entry_of_invalid (by omega)] at hQ
        exact wp_pure.mpr hQ
      next hvalid =>
        rw [entry_of_valid (by omega), userPa] at hQ
        split
        next hu =>
          rw [if_pos hu] at hQ
          exact wp_pure.mpr hQ
        next hu =>
          rw [if_neg hu] at hQ
          exact wp_pure.mpr hQ

end Small

end Vm
end Xv6
