import Mathlib.Tactic
import Xv6.Vm.Copy

/-!
# User address spaces

`uvmalloc` and `uvmdealloc` of `vm.c`.  A process of size `sz` has the virtual pages below
`PGROUNDUP(sz)`, each with a physical page of its own.

Main results:

- Theorem {lit}`Space.wp_uvmunmap`: giving back the upper pages.
- Theorem {lit}`Space.wp_uvmalloc`: new pages are zero, and a failing call leaves nothing behind.
- Theorem {lit}`Space.wp_uvmdealloc`: the pages that stay are not touched.
-/

namespace Xv6
namespace Vm

open Lib

/-! ## The functions -/

/-- An `int` that is passed as a `uint64`. -/
def intU64 (x : Nat) : Nat := (int x % 2 ^ 64).toNat

/-- The `if` of `uvmdealloc`. -/
def unmapAbove (K : Image) (pagetable oldsz newsz : Nat) : Prog Phys Unit :=
  if pgroundup newsz < pgroundup oldsz then
    uvmunmap K pagetable (pgroundup newsz)
      (intU64 ((pgroundup oldsz - pgroundup newsz) / pgsize)) true
  else pure ()

/-- `uvmdealloc`. -/
def uvmdealloc (K : Image) (pagetable oldsz newsz : Nat) : Prog Phys Nat :=
  if oldsz ≤ newsz then pure oldsz
  else do
    unmapAbove K pagetable oldsz newsz
    pure newsz

/-- The flags of the user's pages. -/
def userPerm : Nat := pteW ||| pteX ||| pteR ||| pteU

/-- The body of the loop of `uvmalloc`. -/
def allocOne (K : Image) (pagetable oldsz newsz a : Nat) : Prog Phys (Nat ⊕ Nat) :=
  if a < newsz then do
    match ← kalloc with
    | none =>
      let _ ← uvmdealloc K pagetable a oldsz
      pure (.inl 0)
    | some mem =>
      memset mem 0
      match ← mappages pagetable a pgsize mem userPerm with
      | true => pure (.inr (u64 (a + pgsize)))
      | false =>
        kfree K mem
        let _ ← uvmdealloc K pagetable a oldsz
        pure (.inl 0)
  else pure (.inl newsz)

/-- `uvmalloc`. -/
def uvmalloc (K : Image) (pagetable oldsz newsz : Nat) : Prog Phys Nat :=
  if newsz < oldsz then pure oldsz
  else loop (allocOne K pagetable (pgroundup oldsz) newsz) rounds (pgroundup oldsz)

/-! ## Address spaces -/

/-- The number of pages for `sz` bytes. -/
def npg (sz : Nat) : Nat := (sz + pgsize - 1) / pgsize

/-- The pages below the trapframe. -/
def userMax : Nat := npages - 2

/-- The physical pages of the table and of the first `n` virtual pages. -/
def owned (mem : Nat → Page) (t n : Nat) (M : Nat → Option Nat) : Set Nat :=
  pages mem t ∪ backing M 0 n

/-- The table `t` maps the first `n` virtual pages, to pages that nobody else has. -/
structure Space (K : Image) (s : Phys) (t n : Nat) (M : Nat → Option Nat) : Prop where
  table : Table s t M
  le : n ≤ userMax
  leaf : ∀ v < n, ∃ pte, M v = some pte ∧ pteFlags pte ≠ pteV
  none : ∀ v, n ≤ v → v < userMax → M v = none
  once : ∀ v v' pte pte', v < n → v' < n → M v = some pte → M v' = some pte' →
    pte2pa pte = pte2pa pte' → v = v'
  sep : ∀ v pte, v < n → M v = some pte → pte2pa pte ∉ pages s.mem t
  owns : Owns K.Ram s (owned s.mem t n M)

/-- The contents of the first `n` virtual pages are what they were. -/
def Keeps (s s' : Phys) (n : Nat) (M : Nat → Option Nat) : Prop :=
  ∀ v pte, v < n → M v = some pte → s'.mem (pte2pa pte) = s.mem (pte2pa pte)

/-- Two maps agree on the first `n` pages and above the user's part. -/
def Agree (n : Nat) (M M' : Nat → Option Nat) : Prop :=
  ∀ v, v < n ∨ userMax ≤ v → M' v = M v

section Space

variable {K : Image} {s s' s'' : Phys} {t n m k v : Nat} {M M' M'' : Nat → Option Nat}
variable {E : String → Phys → Prop}

/-- Nothing has changed. -/
theorem Keeps.refl (s : Phys) (n : Nat) (M : Nat → Option Nat) : Keeps s s n M :=
  fun _ _ _ _ => rfl

/-- One change after another. -/
theorem Keeps.trans (h : Keeps s s' n M) (h' : Keeps s' s'' n M') (hM : Agree n M M') :
    Keeps s s'' n M := by
  intro v pte hv hpte
  rw [h' v pte hv (by rw [hM v (Or.inl hv)]; exact hpte), h v pte hv hpte]

/-- The same map. -/
theorem Agree.refl (n : Nat) (M : Nat → Option Nat) : Agree n M M :=
  fun _ _ => rfl

/-- Three maps. -/
theorem Agree.trans (h : Agree n M M') (h' : Agree m M' M'') (hle : n ≤ m) : Agree n M M'' := by
  intro v hv
  rw [h' v (hv.imp_left fun hlt => by omega), h v hv]

/-- `PGROUNDUP` without a carry. -/
theorem pgroundup_eq {sz : Nat} (hsz : sz + pgsize ≤ 2 ^ 64) : pgroundup sz = npg sz * pgsize := by
  unfold pgroundup npg u64 pgsize at *
  omega

theorem userMax_mul : userMax * pgsize = trapframeVa := by
  decide

/-- More bytes need more pages. -/
theorem npg_mono {sz sz' : Nat} (h : sz ≤ sz') : npg sz ≤ npg sz' :=
  Nat.div_le_div_right (by omega)

/-- Whole pages. -/
theorem npg_mul (n : Nat) : npg (n * pgsize) = n := by
  unfold npg pgsize
  omega

/-- The pages hold the bytes. -/
theorem npg_mul_ge (sz : Nat) : sz ≤ npg sz * pgsize := by
  unfold npg pgsize
  omega

theorem intU64_of_lt {x : Nat} (hx : x < 2 ^ 31) : intU64 x = x := by
  unfold intU64
  rw [int_of_lt (by omega) (by omega), Int.emod_eq_of_lt (by omega) (by omega)]
  rfl

/-- The frame of a page. -/
theorem mem_backing {pte : Nat} (hv : v < n) (hpte : M v = some pte) :
    pte2pa pte ∈ backing M 0 n :=
  ⟨v, pte, Nat.zero_le v, by omega, hpte, rfl⟩

/-- The frames depend on the pages. -/
theorem backing_congr (h : ∀ v < n, M' v = M v) : backing M' 0 n = backing M 0 n := by
  ext pa
  constructor
  · rintro ⟨v, pte, hge, hlt, hpte, hpa⟩
    exact ⟨v, pte, hge, hlt, by rw [← h v (by omega)]; exact hpte, hpa⟩
  · rintro ⟨v, pte, hge, hlt, hpte, hpa⟩
    exact ⟨v, pte, hge, hlt, by rw [h v (by omega)]; exact hpte, hpa⟩

/-- The lower pages and the upper pages. -/
theorem backing_split (hm : m ≤ n) :
    backing M 0 n = backing M m (n - m) ∪ backing M 0 m := by
  ext pa
  constructor
  · rintro ⟨v, pte, hge, hlt, hpte, hpa⟩
    by_cases hv : v < m
    · exact Or.inr ⟨v, pte, hge, by omega, hpte, hpa⟩
    · exact Or.inl ⟨v, pte, by omega, by omega, hpte, hpa⟩
  · rintro (⟨v, pte, hge, hlt, hpte, hpa⟩ | ⟨v, pte, hge, hlt, hpte, hpa⟩)
    · exact ⟨v, pte, by omega, by omega, hpte, hpa⟩
    · exact ⟨v, pte, by omega, by omega, hpte, hpa⟩

/-- A page of the program is not free. -/
theorem Space.notMem_free {pte : Nat} (h : Space K s t n M) (hv : v < n) (hpte : M v = some pte) :
    pte2pa pte ∉ s.free :=
  fun hfree => h.owns.sep _ hfree (Or.inr (mem_backing hv hpte))

/-- The pages from `m` on are unmapped and freed. -/
theorem Space.wp_uvmunmap {Q : Unit → Phys → Prop} (h : Space K s t n M) (hm : m ≤ n)
    (hQ : ∀ s', Space K s' t m (clear M m (n - m)) → Keeps s s' m M →
      Trade s s' (owned s.mem t n M) (owned s'.mem t m (clear M m (n - m))) → Q () s') :
    Wp (uvmunmap K t (m * pgsize) (n - m) true) s Q E := by
  have hle := h.le
  have hmax : userMax < npages := by decide
  have hclear : ∀ v < m, clear M m (n - m) v = M v := fun v hv => clear_of_lt hv
  have howns : Owns K.Ram s (pages s.mem t ∪ freed true M m (n - m)) := by
    refine h.owns.subset ?_
    rintro p (hp | hp)
    · exact Or.inl hp
    · obtain ⟨v, pte, hge, hlt, hpte, rfl⟩ := hp
      exact Or.inr (mem_backing (by omega) hpte)
  -- The lower pages are neither freed nor tables.
  have hlow : ∀ v pte, v < m → M v = some pte →
      pte2pa pte ∉ pages s.mem t ∪ freed true M m (n - m) := by
    rintro v pte hv hpte (hp | hp)
    · exact h.sep v pte (by omega) hpte hp
    · obtain ⟨v', pte', hge, hlt, hpte', hpa⟩ := hp
      have := h.once v' v pte' pte (by omega) (by omega) hpte' hpte hpa
      omega
  refine Vm.wp_uvmunmap h.table (by omega) howns ?_ ?_ ?_ ?_
  · exact fun _ v v' pte pte' _ hv _ hv' => h.once v v' pte pte' (by omega) (by omega)
  · exact fun _ v pte _ hv => h.sep v pte (by omega)
  · intro e s' v hge hlt hbad
    obtain ⟨pte, hpte, hflags⟩ := h.leaf v (by omega)
    exact absurd (hbad pte hpte) hflags
  · intro s' hT hpages htrade _
    have hkeeps : Keeps s s' m M := fun v pte hv hpte =>
      htrade.frame _ (hlow v pte hv hpte) (h.notMem_free (by omega) hpte)
    have hwide : Trade s s' (owned s.mem t n M) (owned s'.mem t m (clear M m (n - m))) := by
      refine (htrade.widen (B := backing M 0 m) ?_ ?_).congr ?_ ?_
      · rintro p ⟨v, pte, -, hlt, hpte, rfl⟩
        exact hlow v pte (by omega) hpte
      · rintro p ⟨v, pte, -, hlt, hpte, rfl⟩
        exact h.notMem_free (by omega) hpte
      · rw [owned, backing_split hm, Set.union_assoc]
        rfl
      · rw [owned, hpages, backing_congr hclear]
    refine hQ s' ⟨hT, by omega, ?_, ?_, ?_, ?_, hwide.owns h.owns⟩ hkeeps hwide
    · intro v hv
      rw [hclear v hv]
      exact h.leaf v (by omega)
    · intro v hge hlt
      by_cases hv : v < n
      · exact clear_of_mem hge (by omega)
      · rw [clear_of_ge (by omega)]
        exact h.none v (by omega) hlt
    · intro v v' pte pte' hv hv' hpte hpte'
      rw [hclear v hv] at hpte
      rw [hclear v' hv'] at hpte'
      exact h.once v v' pte pte' (by omega) (by omega) hpte hpte'
    · intro v pte hv hpte
      rw [hclear v hv] at hpte
      rw [hpages]
      exact h.sep v pte (by omega) hpte

/-- `uvmdealloc` between two sizes, from the first `n` pages to the first `m`. -/
theorem Space.wp_uvmdealloc {oldsz newsz : Nat} {Q : Nat → Phys → Prop} (h : Space K s t n M)
    (hold : pgroundup oldsz = n * pgsize) (hnew : pgroundup newsz = m * pgsize)
    (hlt : newsz < oldsz) (hm : m ≤ n)
    (hQ : ∀ s' M', Space K s' t m M' → Agree m M M' → Keeps s s' m M →
      Trade s s' (owned s.mem t n M) (owned s'.mem t m M') → Q newsz s') :
    Wp (uvmdealloc K t oldsz newsz) s Q E := by
  unfold uvmdealloc unmapAbove
  rw [if_neg (by omega), hold, hnew, wp_bind]
  have hagree : Agree m M (clear M m (n - m)) := by
    intro v hv
    have hle := h.le
    obtain hlow | hhigh := hv
    · exact clear_of_lt hlow
    · exact clear_of_ge (by omega)
  split
  next hpages =>
    have hcount : intU64 ((n * pgsize - m * pgsize) / pgsize) = n - m := by
      have hle := h.le
      rw [← Nat.sub_mul, Nat.mul_div_cancel _ (by decide)]
      refine intU64_of_lt ?_
      unfold userMax npages maxva pgsize at hle
      omega
    rw [hcount]
    refine h.wp_uvmunmap hm fun s' hs' hkeeps htrade => wp_pure.mpr ?_
    exact hQ s' _ hs' hagree hkeeps htrade
  next hpages =>
    obtain rfl : m = n := by
      have : ¬ m < n := fun hmn => hpages (Nat.mul_lt_mul_of_pos_right hmn (by decide))
      omega
    exact wp_pure.mpr (wp_pure.mpr (hQ s M h (Agree.refl m M) (Keeps.refl s m M) h.owns.refl))

/-- `PGROUNDUP` of whole pages. -/
theorem pgroundup_mul (hn : n ≤ userMax) : pgroundup (n * pgsize) = n * pgsize := by
  rw [pgroundup_eq, npg_mul]
  unfold userMax npages maxva pgsize at *
  omega

/-- `uvmalloc` gives up: the pages from `m` on are given back. -/
theorem Space.wp_undo {Q : Nat → Phys → Prop} (h : Space K s t n M) (hm : m ≤ n)
    (hQ : ∀ r s' M', Space K s' t m M' → Agree m M M' → Keeps s s' m M →
      Trade s s' (owned s.mem t n M) (owned s'.mem t m M') → Q r s') :
    Wp (uvmdealloc K t (n * pgsize) (m * pgsize)) s Q E := by
  have hle := h.le
  obtain rfl | hlt := Nat.eq_or_lt_of_le hm
  · unfold uvmdealloc
    rw [if_pos (Nat.le_refl _)]
    exact wp_pure.mpr (hQ _ s M h (Agree.refl m M) (Keeps.refl s m M) h.owns.refl)
  · refine h.wp_uvmdealloc (pgroundup_mul hle) (pgroundup_mul (by omega))
      (Nat.mul_lt_mul_of_pos_right hlt (by decide)) hm fun s' M' => ?_
    exact hQ _ s' M'

/-! ## Growing -/

/-- The flags that `mappages` sets. -/
theorem mapEntry_flags {pa perm : Nat} (hperm : perm < 1024) :
    pteFlags (mapEntry pa perm 0) = perm ||| pteV := by
  have hdecode : (pte2pa (mapEntry pa perm 0), pteFlags (mapEntry pa perm 0)) = _ :=
    mapEntry_decode hperm
  exact (Prod.mk.inj hdecode).2

/-- The entry of a new page. -/
theorem newEntry {p : Nat} (hp : K.Ram p) :
    pte2pa (mapEntry p userPerm 0) = p ∧ pteFlags (mapEntry p userPerm 0) ≠ pteV := by
  have hlt := hp.lt
  have hdecode : (pte2pa (mapEntry p userPerm 0), pteFlags (mapEntry p userPerm 0)) = _ :=
    mapEntry_decode (by decide)
  refine ⟨?_, ?_⟩
  · rw [(Prod.mk.inj hdecode).1, Nat.zero_mul, Nat.add_zero, u64, Nat.mod_eq_of_lt (by omega)]
    exact hp.aligned
  · rw [mapEntry_flags (by decide)]
    decide

/-- The pages from `n` to `n'` are new and zero, the others are as they were. -/
structure Grown (s s' : Phys) (n n' : Nat) (M M' : Nat → Option Nat) : Prop where
  agree : Agree n M M'
  keeps : Keeps s s' n M
  fresh : ∀ v, n ≤ v → v < n' → ∃ p, M' v = some (mapEntry p userPerm 0) ∧
    pte2pa (mapEntry p userPerm 0) = p ∧ s'.mem p = fun _ => 0

/-- Nothing has been added. -/
theorem Grown.refl (s : Phys) (n : Nat) (M : Nat → Option Nat) : Grown s s n n M M :=
  ⟨Agree.refl n M, Keeps.refl s n M, fun v hge hlt => by omega⟩

/-- One growth after another. -/
theorem Grown.trans (h : Grown s s' n m M M') (h' : Grown s' s'' m k M' M'') (hnm : n ≤ m) :
    Grown s s'' n k M M'' where
  agree := h.agree.trans h'.agree hnm
  keeps := by
    have hkeeps : Keeps s' s'' n M' := fun v pte hv hpte => h'.keeps v pte (by omega) hpte
    exact h.keeps.trans hkeeps h.agree
  fresh v hge hlt := by
    by_cases hv : v < m
    · obtain ⟨p, hp, hpa, hzero⟩ := h.fresh v hge hv
      refine ⟨p, by rw [h'.agree v (Or.inl hv)]; exact hp, hpa, ?_⟩
      rw [← hpa, h'.keeps v _ hv hp, hpa, hzero]
    · exact h'.fresh v (by omega) hlt

/-- A page of the pool that belongs to nobody, beside an address space. -/
structure Spare (K : Image) (s : Phys) (t n : Nat) (M : Nat → Option Nat) (p : Nat) : Prop where
  space : Space K s t n M
  notMem : p ∉ owned s.mem t n M
  owns : Owns K.Ram s (insert p (owned s.mem t n M))

/-- A spare page is in RAM. -/
theorem Spare.ram {p : Nat} (h : Spare K s t n M p) : K.Ram p :=
  h.owns.ok p (Or.inl (Set.mem_insert ..))

/-- Another page has been taken and zeroed. -/
theorem Space.take {p : Nat} (h : Space K s t n M) (hp : p ∉ owned s.mem t n M)
    (hsame : ∀ q, q ≠ p → s'.mem q = s.mem q)
    (htrade : Trade s s' (owned s.mem t n M) (insert p (owned s.mem t n M))) :
    Spare K s' t n M p ∧ Keeps s s' n M ∧ pages s'.mem t = pages s.mem t := by
  obtain ⟨hT, hpages, -⟩ := h.table.frame fun q hq => hsame q fun heq => hp (heq ▸ Or.inl hq)
  have howned : owned s'.mem t n M = owned s.mem t n M := by rw [owned, hpages, owned]
  have howns := htrade.owns h.owns
  refine ⟨⟨⟨hT, h.le, h.leaf, h.none, h.once, ?_, ?_⟩, ?_, ?_⟩, ?_, hpages⟩
  · intro v pte hv hpte
    rw [hpages]
    exact h.sep v pte hv hpte
  · rw [howned]
    exact howns.subset (Set.subset_insert ..)
  · rw [howned]
    exact hp
  · rw [howned]
    exact howns
  · intro v pte hv hpte
    exact hsame _ fun heq => hp (heq ▸ Or.inr (mem_backing hv hpte))

/-- The tables have got new pages, which are not the user's. -/
theorem Spare.trade {p : Nat} (h : Spare K s t n M p)
    (htrade : Trade s s' (pages s.mem t) (pages s'.mem t)) :
    Trade s s' (insert p (owned s.mem t n M)) (insert p (owned s'.mem t n M)) ∧
      Keeps s s' n M ∧ s'.mem p = s.mem p ∧ p ∉ pages s'.mem t ∧
      ∀ v pte, v < n → M v = some pte → pte2pa pte ∉ pages s'.mem t := by
  have hp : p ∉ pages s.mem t := fun hmem => h.notMem (Or.inl hmem)
  have hpfree : p ∉ s.free := fun hfree => h.owns.sep p hfree (Set.mem_insert ..)
  refine ⟨?_, ?_, htrade.frame p hp hpfree, (htrade.apart hp hpfree).1, ?_⟩
  · refine (htrade.widen (B := insert p (backing M 0 n)) ?_ ?_).congr ?_ ?_
    · rintro q (rfl | ⟨v, pte, -, hlt, hpte, rfl⟩)
      · exact hp
      · exact h.space.sep v pte (by omega) hpte
    · rintro q (rfl | ⟨v, pte, -, hlt, hpte, rfl⟩)
      · exact hpfree
      · exact h.space.notMem_free (by omega) hpte
    · rw [owned, Set.union_insert]
    · rw [owned, Set.union_insert]
  · intro v pte hv hpte
    exact htrade.frame _ (h.space.sep v pte hv hpte) (h.space.notMem_free hv hpte)
  · intro v pte hv hpte
    exact (htrade.apart (h.space.sep v pte hv hpte) (h.space.notMem_free hv hpte)).1

/-- The spare page has been mapped behind the others. -/
theorem Spare.mapped {p : Nat} (h : Spare K s t n M p) (hn : n < userMax)
    (hT : Table s' t (fill M n 1 (mapEntry p userPerm)))
    (htrade : Trade s s' (pages s.mem t) (pages s'.mem t)) :
    Space K s' t (n + 1) (fill M n 1 (mapEntry p userPerm)) ∧ Agree n M
      (fill M n 1 (mapEntry p userPerm)) ∧
      Trade s s' (insert p (owned s.mem t n M))
        (owned s'.mem t (n + 1) (fill M n 1 (mapEntry p userPerm))) := by
  obtain ⟨hpa, hflags⟩ := newEntry h.ram
  obtain ⟨hwide, hkeeps, hpmem, hppages, hsep⟩ := h.trade htrade
  generalize hM' : fill M n 1 (mapEntry p userPerm) = M' at hT ⊢
  have hlow : ∀ v < n, M' v = M v := by
    intro v hv
    rw [← hM']
    exact fill_of_lt hv
  have hnew : M' n = some (mapEntry p userPerm 0) := by
    rw [← hM', fill_of_mem (Nat.le_refl n) (Nat.lt_succ_self n), Nat.sub_self]
  have hhigh : ∀ v, n < v → M' v = M v := by
    intro v hv
    rw [← hM']
    exact fill_of_ge (by omega)
  have hcases : ∀ v pte, v < n + 1 → M' v = some pte →
      (v < n ∧ M v = some pte) ∨ (v = n ∧ pte = mapEntry p userPerm 0) := by
    intro v pte hv hpte
    obtain hlt | rfl := Nat.lt_or_eq_of_le (Nat.lt_succ_iff.mp hv)
    · exact Or.inl ⟨hlt, by rw [← hlow v hlt]; exact hpte⟩
    · rw [hnew] at hpte
      exact Or.inr ⟨rfl, (Option.some.inj hpte).symm⟩
  have hfresh : ∀ v pte, v < n → M v = some pte → pte2pa pte ≠ p := by
    intro v pte hv hpte heq
    exact h.notMem (heq ▸ Or.inr (mem_backing hv hpte))
  have hbacking : backing M' 0 (n + 1) = insert p (backing M 0 n) := by
    ext q
    constructor
    · rintro ⟨v, pte, -, hlt, hpte, rfl⟩
      obtain ⟨hv, hpte⟩ | ⟨-, rfl⟩ := hcases v pte (by omega) hpte
      · exact Or.inr (mem_backing hv hpte)
      · exact Or.inl hpa
    · rintro (rfl | ⟨v, pte, -, hlt, hpte, rfl⟩)
      · exact ⟨n, _, Nat.zero_le n, by omega, hnew, hpa⟩
      · exact mem_backing (v := v) (by omega) ((hlow v (by omega)).trans hpte)
  have howned : owned s'.mem t (n + 1) M' = insert p (owned s'.mem t n M) := by
    rw [owned, hbacking, Set.union_insert, owned]
  rw [howned]
  refine ⟨⟨hT, hn, ?_, ?_, ?_, ?_, ?_⟩, ?_, hwide⟩
  · intro v hv
    obtain hlt | rfl := Nat.lt_or_eq_of_le (Nat.lt_succ_iff.mp hv)
    · rw [hlow v hlt]
      exact h.space.leaf v hlt
    · exact ⟨_, hnew, hflags⟩
  · intro v hge hlt
    rw [hhigh v (by omega)]
    exact h.space.none v (by omega) hlt
  · intro v v' pte pte' hv hv' hpte hpte' heq
    obtain ⟨hlt, hpte⟩ | ⟨rfl, rfl⟩ := hcases v pte hv hpte
    · obtain ⟨hlt', hpte'⟩ | ⟨rfl, rfl⟩ := hcases v' pte' hv' hpte'
      · exact h.space.once v v' pte pte' hlt hlt' hpte hpte' heq
      · exact absurd (heq.trans hpa) (hfresh v pte hlt hpte)
    · obtain ⟨hlt', hpte'⟩ | ⟨rfl, rfl⟩ := hcases v' pte' hv' hpte'
      · exact absurd (heq.symm.trans hpa) (hfresh v' pte' hlt' hpte')
      · rfl
  · intro v pte hv hpte
    obtain ⟨hlt, hpte⟩ | ⟨rfl, rfl⟩ := hcases v pte hv hpte
    · exact hsep v pte hlt hpte
    · rw [hpa]
      exact hppages
  · rw [howned]
    exact hwide.owns h.owns
  · intro v hv
    obtain hlt | hge := hv
    · exact hlow v hlt
    · exact hhigh v (by omega)

/-- The spare page is given back. -/
theorem Spare.wp_kfree {p : Nat} {Q : Unit → Phys → Prop} (h : Spare K s t n M p)
    (hQ : ∀ s', Space K s' t n M → Keeps s s' n M →
      Trade s s' (insert p (owned s.mem t n M)) (owned s'.mem t n M) → Q () s') :
    Wp (kfree K p) s Q E := by
  refine Vm.wp_kfree h.owns h.notMem fun s' _ hsame htrade => ?_
  obtain ⟨hT, hpages, -⟩ := h.space.table.frame fun q hq =>
    hsame q fun heq => h.notMem (heq ▸ Or.inl hq)
  have howned : owned s'.mem t n M = owned s.mem t n M := by rw [owned, hpages, owned]
  refine hQ s' ⟨hT, h.space.le, h.space.leaf, h.space.none, h.space.once, ?_, ?_⟩ ?_ ?_
  · intro v pte hv hpte
    rw [hpages]
    exact h.space.sep v pte hv hpte
  · rw [howned]
    exact htrade.owns h.owns
  · intro v pte hv hpte
    exact hsame _ fun heq => h.notMem (heq ▸ Or.inr (mem_backing hv hpte))
  · rw [howned]
    exact htrade

/-- `mappages` has failed: the page is still spare. -/
theorem Spare.unmapped {p : Nat} (h : Spare K s t n M p) (hT : Table s' t M)
    (htrade : Trade s s' (pages s.mem t) (pages s'.mem t)) : Spare K s' t n M p := by
  obtain ⟨hwide, -, -, hp, hsep⟩ := h.trade htrade
  have howns := hwide.owns h.owns
  refine ⟨⟨hT, h.space.le, h.space.leaf, h.space.none, h.space.once, hsep, ?_⟩, ?_, howns⟩
  · exact howns.subset (Set.subset_insert ..)
  · rintro (hmem | ⟨v, pte, -, hlt, hpte, rfl⟩)
    · exact hp hmem
    · exact h.notMem (Or.inr (mem_backing (by omega) hpte))

/-- There are fewer physical pages than virtual ones. -/
theorem Space.le_ram (h : Space K s t n M) : n ≤ 32768 := by
  choose! pte hpte using fun v (hv : v < n) => h.leaf v hv
  have hmaps : ∀ v ∈ Finset.range n,
      (pte2pa (pte v) - kernbase) / pgsize ∈ Finset.range 32768 := by
    intro v hv
    have hram := h.owns.ok _ (Or.inl (Or.inr (mem_backing (Finset.mem_range.mp hv)
      (hpte v (Finset.mem_range.mp hv)).1)))
    rw [Finset.mem_range]
    unfold Image.Ram phystop pgsize kernbase at *
    omega
  have hinj : Set.InjOn (fun v => (pte2pa (pte v) - kernbase) / pgsize) (Finset.range n) := by
    intro v hv v' hv' heq
    rw [Finset.mem_coe, Finset.mem_range] at hv hv'
    have hram := h.owns.ok _ (Or.inl (Or.inr (mem_backing hv (hpte v hv).1)))
    have hram' := h.owns.ok _ (Or.inl (Or.inr (mem_backing hv' (hpte v' hv').1)))
    refine h.once v v' _ _ hv hv' (hpte v hv).1 (hpte v' hv').1 ?_
    have := K.kernbase_le
    have := K.trampoline_lt
    unfold Image.Ram pgsize kernbase at *
    dsimp only at heq
    omega
  have hcard := Finset.card_le_card_of_injOn _ hmaps hinj
  rw [Finset.card_range, Finset.card_range] at hcard
  exact hcard

/-- One round of `uvmalloc`. -/
theorem Space.wp_allocOne {newsz : Nat} {Q : Nat ⊕ Nat → Phys → Prop} (h : Space K s t n M)
    (hm : m ≤ n) (hend : npg newsz ≤ n → Q (.inl newsz) s)
    (hnext : n < npg newsz → ∀ s' M', Space K s' t (n + 1) M' → Grown s s' n (n + 1) M M' →
      Trade s s' (owned s.mem t n M) (owned s'.mem t (n + 1) M') →
      Q (.inr ((n + 1) * pgsize)) s')
    (hfail : n < npg newsz → ∀ s' M', Space K s' t m M' → Agree m M M' → Keeps s s' m M →
      Trade s s' (owned s.mem t n M) (owned s'.mem t m M') → Q (.inl 0) s') :
    Wp (allocOne K t (m * pgsize) newsz (n * pgsize)) s Q E := by
  have hle := h.le_ram
  have hmax : 32768 < userMax := by decide
  have hmore : n * pgsize < newsz ↔ n < npg newsz := by
    unfold npg pgsize
    omega
  unfold allocOne
  split
  next hlt =>
    have hnew := hmore.mp hlt
    rw [wp_bind]
    refine wp_kalloc h.owns (fun hfree => ?_) fun p s₁ hp _ hsame htrade => ?_
    · rw [wp_bind]
      exact h.wp_undo hm fun r s' M' h' hM' hs' ht' =>
        wp_pure.mpr (hfail hnew s' M' h' hM' hs' ht')
    · -- the page is zeroed, then mapped behind the others
      rw [wp_bind, wp_memset]
      generalize hs₂ : s₁.write p (fun _ => 0) = s₂
      have hzero : s₂.mem p = fun _ => 0 := by
        rw [← hs₂]
        exact mem_write_same ..
      have hsame₂ : ∀ q, q ≠ p → s₂.mem q = s.mem q := by
        intro q hq
        rw [← hs₂, mem_write_of_ne s₁ _ hq, hsame q hq]
      have htrade₂ : Trade s s₂ (owned s.mem t n M) (insert p (owned s.mem t n M)) := by
        rw [← hs₂]
        exact htrade.trans ((htrade.owns h.owns).write (Set.mem_insert ..))
      obtain ⟨hspare, hkeeps, hpages⟩ := h.take hp hsame₂ htrade₂
      have howned : owned s₂.mem t n M = owned s.mem t n M := by rw [owned, hpages, owned]
      rw [← howned] at htrade₂
      have hdiv : n * pgsize / pgsize = n := Nat.mul_div_cancel _ (by decide)
      rw [wp_bind]
      refine wp_mappages hspare.space.table
        (hspare.owns.subset fun q hq => Or.inr (Or.inl hq)) (by decide)
        ?_ ?_ (by decide) 1 ?_ ?_ ?_ ?_
      · unfold userMax npages maxva pgsize at *
        omega
      · have := hspare.ram.lt
        omega
      · unfold pgsize
        omega
      · intro s₃ hT ht₃ _ _
        rw [hdiv] at hT
        obtain ⟨h₃, hM₃, htrade₃⟩ := hspare.mapped (by omega) hT ht₃
        obtain ⟨-, hkeeps₃, hpmem, -, -⟩ := hspare.trade ht₃
        have hnext' : u64 (n * pgsize + pgsize) = (n + 1) * pgsize := by
          unfold u64 pgsize
          omega
        rw [hnext']
        refine wp_pure.mpr (hnext hnew s₃ _ h₃ ⟨hM₃, ?_, ?_⟩ ?_)
        · exact hkeeps.trans hkeeps₃ (Agree.refl n M)
        · intro v hge hv
          obtain rfl : v = n := by omega
          refine ⟨p, ?_, (newEntry hspare.ram).1, hpmem.trans hzero⟩
          rw [fill_of_mem hge hv, Nat.sub_self]
        · rw [howned] at htrade₂ htrade₃
          exact htrade₂.trans htrade₃
      · intro s₃ k hk hT ht₃ _
        obtain rfl : k = 0 := by omega
        rw [fill_zero] at hT
        obtain ⟨hwide, hkeeps₃, -⟩ := hspare.trade ht₃
        rw [wp_bind]
        refine (hspare.unmapped hT ht₃).wp_kfree fun s₄ h₄ hkeeps₄ htrade₄ => ?_
        rw [wp_bind]
        refine h₄.wp_undo hm fun r s' M' h' hM' hs' ht' => wp_pure.mpr ?_
        have hall := (hkeeps.trans hkeeps₃ (Agree.refl n M)).trans hkeeps₄ (Agree.refl n M)
        refine hfail hnew s' M' h' hM' ?_ ?_
        · exact Keeps.trans (fun v pte hv => hall v pte (by omega)) hs' (Agree.refl m M)
        · rw [howned] at htrade₂ hwide
          exact ((htrade₂.trans hwide).trans htrade₄).trans ht'
      · intro s₃ v hge hv hbad
        rw [hdiv] at hge hv
        exact absurd (h.none v hge (by omega)) hbad
  next hge =>
    exact wp_pure.mpr (hend (by omega))

/-- `uvmalloc`: either the new pages are there and zero, or nothing has changed. -/
theorem Space.wp_uvmalloc {oldsz newsz : Nat} {Q : Nat → Phys → Prop} (h : Space K s t n M)
    (hold : pgroundup oldsz = n * pgsize) (hle : oldsz ≤ newsz)
    (hok : ∀ s' M', Space K s' t (max n (npg newsz)) M' →
      Grown s s' n (max n (npg newsz)) M M' →
      Trade s s' (owned s.mem t n M) (owned s'.mem t (max n (npg newsz)) M') → Q newsz s')
    (hfail : ∀ s' M', Space K s' t n M' → Agree n M M' → Keeps s s' n M →
      Trade s s' (owned s.mem t n M) (owned s'.mem t n M') → Q 0 s') :
    Wp (uvmalloc K t oldsz newsz) s Q E := by
  unfold uvmalloc
  rw [if_neg (by omega), hold]
  -- after `k` rounds the address space has `k` more pages
  refine wp_loop (fun a s₁ => ∃ k M₁, n + k ≤ max n (npg newsz) ∧ a = (n + k) * pgsize ∧
      Space K s₁ t (n + k) M₁ ∧ Grown s s₁ n (n + k) M M₁ ∧
      Trade s s₁ (owned s.mem t n M) (owned s₁.mem t (n + k) M₁))
    (fun a _ => maxva - a) ?_ ?_ ?_
  · rintro a s₁ ⟨k, M₁, hk, rfl, h₁, hgrown, htrade⟩
    refine h₁.wp_allocOne (Nat.le_add_right n k) (fun hend => ?_) (fun hlt s₂ M₂ h₂ hg₂ ht₂ => ?_)
      fun hlt s₂ M₂ h₂ hM₂ hk₂ ht₂ => ?_
    · obtain hcount : n + k = max n (npg newsz) := by omega
      rw [hcount] at h₁ hgrown htrade
      exact hok s₁ M₁ h₁ hgrown htrade
    · refine ⟨⟨k + 1, M₂, by omega, rfl, h₂, hgrown.trans hg₂ (by omega), htrade.trans ht₂⟩, ?_⟩
      have hbound := h₁.le_ram
      dsimp only
      unfold maxva pgsize
      omega
    · exact hfail s₂ M₂ h₂ (hgrown.agree.trans hM₂ (Nat.le_refl n))
        (hgrown.keeps.trans hk₂ hgrown.agree) (htrade.trans ht₂)
  · exact ⟨0, M, by omega, rfl, h, Grown.refl s n M, h.owns.refl⟩
  · unfold rounds maxva
    omega

/-- A page of the user is written. -/
theorem Space.write {pte : Nat} (h : Space K s t n M) (hv : v < n) (hpte : M v = some pte)
    (c : Page) :
    Space K (s.write (pte2pa pte) c) t n M ∧
      Trade s (s.write (pte2pa pte) c) (owned s.mem t n M)
        (owned (s.write (pte2pa pte) c).mem t n M) := by
  have hne : ∀ q ∈ pages s.mem t, q ≠ pte2pa pte :=
    fun q hq heq => h.sep v pte hv hpte (heq ▸ hq)
  have hsame : ∀ q ∈ pages s.mem t, (s.write (pte2pa pte) c).mem q = s.mem q :=
    fun q hq => mem_write_of_ne s c (hne q hq)
  obtain ⟨hT, hpages, -⟩ := h.table.frame hsame
  have howned : owned (s.write (pte2pa pte) c).mem t n M = owned s.mem t n M := by
    rw [owned, hpages, owned]
  have htrade := h.owns.write (v := c) (Or.inr (mem_backing hv hpte))
  refine ⟨⟨hT, h.le, h.leaf, h.none, h.once, ?_, ?_⟩, ?_⟩
  · intro v' pte' hv' hpte'
    rw [hpages]
    exact h.sep v' pte' hv' hpte'
  · rw [howned]
    exact htrade.owns h.owns
  · rw [howned]
    exact htrade

/-- An address space that has not been touched. -/
theorem Space.frame (h : Space K s t n M) (hmem : ∀ q ∈ owned s.mem t n M, s'.mem q = s.mem q)
    (ho : Owns K.Ram s' (owned s.mem t n M)) :
    Space K s' t n M ∧ owned s'.mem t n M = owned s.mem t n M := by
  obtain ⟨hT, hpages, -⟩ := h.table.frame fun q hq => hmem q (Or.inl hq)
  have howned : owned s'.mem t n M = owned s.mem t n M := by rw [owned, hpages, owned]
  refine ⟨⟨hT, h.le, h.leaf, h.none, h.once, ?_, ?_⟩, howned⟩
  · intro v pte hv hpte
    rw [hpages]
    exact h.sep v pte hv hpte
  · rw [howned]
    exact ho

/-- `PGROUNDUP` of a size. -/
theorem Space.pgroundup_npg {sz : Nat} (h : Space K s t (npg sz) M) :
    pgroundup sz = npg sz * pgsize := by
  have hram := h.le_ram
  refine pgroundup_eq ?_
  unfold npg pgsize at *
  omega

/-- A page that the user can access. -/
theorem Space.userPage {pte : Nat} (h : Space K s t n M) (hv : v < n) (hpte : M v = some pte)
    (hu : pte &&& pteU ≠ 0) : Vm.userPage s.mem t v = some (pte2pa pte) := by
  have hle := h.le
  have hlt : v < npages := Nat.lt_of_lt_of_le hv (le_trans hle (by decide))
  have hram := h.owns.ok _ (Or.inl (Or.inr (mem_backing hv hpte)))
  have hpos := hram.pos
  rw [Vm.userPage, if_pos hlt, h.table.map v hlt, hpte, Option.bind_some, if_neg]
  rintro (hzero | hzero)
  · exact hu hzero
  · omega

/-- The entry of a user page. -/
theorem Space.of_userPage {pa : Nat} (h : Space K s t n M) (hv : v < n)
    (hpage : Vm.userPage s.mem t v = some pa) : ∃ pte, M v = some pte ∧ pte2pa pte = pa := by
  obtain ⟨pte, hpte, -⟩ := h.leaf v hv
  have hlt : v < npages := Nat.lt_of_lt_of_le hv (le_trans h.le (by decide))
  rw [Vm.userPage, if_pos hlt, h.table.map v hlt, hpte, Option.bind_some] at hpage
  split at hpage
  · cases hpage
  · exact ⟨pte, hpte, Option.some.inj hpage⟩

/-- A new table has no pages. -/
theorem space_of_uvmcreate {A : Set Nat} (ho : Owns K.Ram s A)
    (hrun : uvmcreate s = .ok (some t) s') : Space K s' t 0 fun _ => none := by
  have hcreate : Wp uvmcreate s (fun r s' => ∀ t, r = some t → Space K s' t 0 fun _ => none)
      fun _ _ => True := by
    refine wp_uvmcreate ho (fun _ t ht => by cases ht) fun p s' _ hT hpages _ htrade _ t ht => ?_
    cases ht
    have howned : owned s'.mem p 0 (fun _ => none) ⊆ insert p A := by
      rintro q (hq | ⟨v, pte, -, -, hpte, -⟩)
      · rw [hpages] at hq
        exact Or.inl hq
      · cases hpte
    refine ⟨hT, Nat.zero_le _, fun v hv => absurd hv (Nat.not_lt_zero v), fun _ _ _ => rfl, ?_, ?_,
      (htrade.owns ho).subset howned⟩
    · exact fun v _ _ _ hv => absurd hv (Nat.not_lt_zero v)
    · exact fun v _ hv => absurd hv (Nat.not_lt_zero v)
  exact hcreate.of_ok hrun t rfl

/-- An empty space. -/
theorem space_tinyTable : Space tinyImage tinyTable 0x80008000 0 fun _ => none :=
  space_of_uvmcreate owns_tinyPool rfl

end Space

end Vm
end Xv6
