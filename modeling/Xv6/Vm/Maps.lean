import Mathlib.Tactic
import Xv6.Lib.Run
import Xv6.Vm.Freewalk

/-!
# Page tables are finite maps

Any sequence of calls on a page table, with other users of the allocator in between,
keeps it a tree that represents a map from virtual pages to physical pages and flags.
What is asked of the caller: `uvmunmap` frees only pages that came from the allocator,
each once, and never a page of the table itself.

Main results:

- Theorem {lit}`MapInv.step`: the calls keep the tree apart from the free list.
- Theorem {lit}`page_tables_are_maps`: the effect of each call on the map.
-/

namespace Xv6
namespace Vm

open Lib

/-- The physical page and the flags of virtual page `v`. -/
def mapOf (s : Phys) (t v : Nat) : Option (Nat × Nat) :=
  (lookup s.mem t v).map fun pte => (pte2pa pte, pteFlags pte)

/-- Calls on a page table, and what other users of the allocator do. -/
inductive MapOp where
  | walk (va : Nat) (alloc : Bool)
  | mappages (va size pa perm : Nat)
  | uvmunmap (va npages : Nat) (doFree : Bool)
  | uvmclear (va : Nat)
  | kalloc
  | kfree (pa : Nat)

/-- The state after a program that returns. -/
def stateOf {α : Type} (m : Prog Phys α) (s : Phys) : Option Phys :=
  match m s with
  | .ok _ s' => some s'
  | .error _ _ => none

/-- A call; there is no step if it panics. -/
def mapStep (K : Image) (t : Nat) (s : Phys) : MapOp → Option Phys
  | .walk va alloc => stateOf (walk t va alloc) s
  | .mappages va size pa perm => stateOf (mappages t va size pa perm) s
  | .uvmunmap va n doFree => stateOf (uvmunmap K t va n doFree) s
  | .uvmclear va => stateOf (uvmclear t va) s
  | .kalloc => stateOf kalloc s
  | .kfree pa => stateOf (kfree K pa) s

/-- The physical pages of `n` virtual pages from `first` on may be freed: they are pages of
the allocator, but neither free nor page table pages, and no two of them are the same. -/
structure Freeable (K : Image) (s : Phys) (t first n : Nat) : Prop where
  ram : ∀ v pte, first ≤ v → v < first + n → lookup s.mem t v = some pte → K.Ram (pte2pa pte)
  busy : ∀ v pte, first ≤ v → v < first + n → lookup s.mem t v = some pte → pte2pa pte ∉ s.free
  data : ∀ v pte, first ≤ v → v < first + n → lookup s.mem t v = some pte →
    pte2pa pte ∉ pages s.mem t
  once : ∀ v v' pte pte', first ≤ v → v < first + n → first ≤ v' → v' < first + n →
    lookup s.mem t v = some pte → lookup s.mem t v' = some pte' → pte2pa pte = pte2pa pte' → v = v'

/-- What is asked of the callers: addresses below `MAXVA`, and care with `kfree`. -/
def MapRule (K : Image) (t : Nat) (s : Phys) : MapOp → Prop
  | .walk va _ => va < maxva
  | .mappages va size pa perm =>
    0 < size ∧ va + size ≤ maxva ∧ pa < 2 ^ 64 ∧ perm < 2 ^ 64
  | .uvmunmap va n doFree =>
    va + n * pgsize ≤ maxva ∧ (doFree = true → Freeable K s t (va / pgsize) n)
  | .uvmclear va => va < maxva
  | .kalloc => True
  | .kfree pa => K.Ram pa ∧ pa ∉ s.free ∧ pa ∉ pages s.mem t

/-- The table is a tree apart from the free list. -/
structure MapInv (K : Image) (t : Nat) (s : Phys) : Prop where
  table : Table s t (lookup s.mem t)
  owns : Owns K.Ram s (pages s.mem t)

section Inv

variable {K : Image} {s s' : Phys} {t : Nat} {M : Nat → Option Nat} {α : Type}

/-- The table has its own entries. -/
theorem Table.self (h : Table s t M) : Table s t (lookup s.mem t) :=
  ⟨h.radix, h.plain, h.low, fun _ _ => rfl⟩

theorem MapInv.mk' (h : Table s' t M) (ho : Owns K.Ram s (pages s.mem t))
    (ht : Trade s s' (pages s.mem t) (pages s'.mem t)) : MapInv K t s' :=
  ⟨h.self, ht.owns ho⟩

/-- A program that has returned. -/
theorem stateOf_eq {m : Prog Phys α} (h : stateOf m s = some s') : ∃ r, m s = .ok r s' := by
  unfold stateOf at h
  split at h
  next r s₁ heq => exact ⟨r, by rw [heq, Option.some.inj h]⟩
  next => cases h

/-- The pages that a call of `uvmunmap` owns. -/
theorem Freeable.owns {first n : Nat} {doFree : Bool} (h : MapInv K t s)
    (hf : doFree = true → Freeable K s t first n) :
    Owns K.Ram s (pages s.mem t ∪ freed doFree (lookup s.mem t) first n) := by
  refine ⟨h.owns.nodup, fun p hp => ?_, fun p hp => ?_⟩
  · rintro (hpage | hfreed)
    · exact h.owns.sep p hp hpage
    · unfold freed at hfreed
      split at hfreed
      next htrue =>
        obtain ⟨v, pte, hge, hlt, hM, rfl⟩ := hfreed
        exact (hf htrue).busy v pte hge hlt hM hp
      next => exact hfreed
  · rcases hp with (hpage | hfreed) | hfree
    · exact h.owns.ok p (Or.inl hpage)
    · unfold freed at hfreed
      split at hfreed
      next htrue =>
        obtain ⟨v, pte, hge, hlt, hM, rfl⟩ := hfreed
        exact (hf htrue).ram v pte hge hlt hM
      next => exact hfreed.elim
    · exact h.owns.ok p (Or.inr hfree)

end Inv

/-! ## The effects of the calls -/

section Effects

variable {K : Image} {s : Phys} {t va : Nat} {E : String → Phys → Prop}

/-- `walk` keeps the map. -/
theorem MapInv.wp_walk (h : MapInv K t s) (hva : va < maxva) (alloc : Bool) :
    Wp (walk t va alloc) s (fun _ s' => MapInv K t s' ∧
      ∀ v < npages, lookup s'.mem t v = lookup s.mem t v) E := by
  cases alloc with
  | false => exact wp_walk_find hva ⟨h, fun _ _ => rfl⟩
  | true =>
    refine wp_walk_alloc h.table h.owns hva (fun s' hT ht _ => ?_) fun s' q hT ht _ _ => ?_
    · exact ⟨.mk' hT h.owns ht, fun v hv => hT.map v hv⟩
    · exact ⟨.mk' hT h.owns ht, fun v hv => hT.map v hv⟩

/-- `mappages` fills the map. -/
theorem MapInv.wp_mappages {size pa perm : Nat} (h : MapInv K t s) (hsize : 0 < size)
    (hva : va + size ≤ maxva) (hpa : pa < 2 ^ 64) (hperm : perm < 2 ^ 64) :
    Wp (mappages t va size pa perm) s (fun r s' => MapInv K t s' ∧
      ∃ k, va / pgsize + k ≤ (va + size - 1) / pgsize + 1 ∧
        (r = true ↔ va / pgsize + k = (va + size - 1) / pgsize + 1) ∧
        ∀ v < npages, lookup s'.mem t v =
          fill (lookup s.mem t) (va / pgsize) k (mapEntry pa perm) v) fun _ _ => True := by
  have hle : va / pgsize ≤ (va + size - 1) / pgsize := Nat.div_le_div_right (by omega)
  refine Vm.wp_mappages h.table h.owns hsize hva hpa hperm
    ((va + size - 1) / pgsize + 1 - va / pgsize) (by omega) ?_ ?_ fun _ _ _ _ _ => trivial
  · intro s' hT ht _ _
    refine ⟨.mk' hT h.owns ht, _, by omega, ?_, hT.map⟩
    exact iff_of_true rfl (by omega)
  · intro s' k hk hT ht _
    refine ⟨.mk' hT h.owns ht, k, by omega, ?_, hT.map⟩
    exact iff_of_false (by simp) (by omega)

/-- `uvmunmap` clears the map. -/
theorem MapInv.wp_uvmunmap {n : Nat} {doFree : Bool} (h : MapInv K t s)
    (hva : va + n * pgsize ≤ maxva) (hf : doFree = true → Freeable K s t (va / pgsize) n) :
    Wp (uvmunmap K t va n doFree) s (fun _ s' => MapInv K t s' ∧
      (∀ v, va / pgsize ≤ v → v < va / pgsize + n → lookup s.mem t v ≠ none) ∧
      ∀ v < npages, lookup s'.mem t v = clear (lookup s.mem t) (va / pgsize) n v)
      fun _ _ => True := by
  by_cases halign : va % pgsize = 0
  · have hmul : va = va / pgsize * pgsize := by
      unfold pgsize at *
      omega
    have hn : va / pgsize + n ≤ npages := by
      unfold npages maxva pgsize at *
      omega
    conv => enter [1, 3]; rw [hmul]
    refine Vm.wp_uvmunmap h.table hn (Freeable.owns h hf) (fun hfree => (hf hfree).once)
      (fun hfree => (hf hfree).data) (fun _ _ _ _ _ _ => trivial) fun s' hT hpages ht hleaf => ?_
    refine ⟨⟨hT.self, ?_⟩, fun v hge hlt => ?_, hT.map⟩
    · rw [hpages]
      exact ht.owns (Freeable.owns h hf)
    · obtain ⟨pte, hpte, -⟩ := hleaf v hge hlt
      simp [hpte]
  · unfold uvmunmap
    rw [if_pos halign]
    exact wp_throw.mpr trivial

/-- `uvmclear` clears one flag. -/
theorem MapInv.wp_uvmclear (h : MapInv K t s) (hva : va < maxva) :
    Wp (uvmclear t va) s (fun _ s' => MapInv K t s' ∧
      ∀ v < npages, lookup s'.mem t v = if v = va / pgsize then (lookup s.mem t v).map clearU
        else lookup s.mem t v) fun _ _ => True := by
  refine Vm.wp_uvmclear h.table h.owns hva (fun _ => trivial) fun s' hT hpages ht => ?_
  refine ⟨⟨hT.self, by rw [hpages]; exact ht.owns h.owns⟩, fun v hv => ?_⟩
  rw [hT.map v hv]
  by_cases heq : v = va / pgsize
  · rw [heq, Function.update_self, if_pos rfl]
  · rw [Function.update_of_ne heq, if_neg heq]

/-- `kalloc` keeps the map. -/
theorem MapInv.wp_kalloc (h : MapInv K t s) :
    Wp kalloc s (fun _ => MapInv K t) fun _ _ => True := by
  refine Vm.wp_kalloc h.owns (fun _ => h) fun p s' hp hfree hsame htake => ?_
  obtain ⟨hT, hpages, -⟩ := h.table.frame fun q hq => hsame q fun heq => hp (heq ▸ hq)
  refine ⟨hT.self, ?_⟩
  rw [hpages]
  exact (htake.owns h.owns).subset (Set.subset_insert p _)

/-- `kfree` of another page keeps the map. -/
theorem MapInv.wp_kfree {pa : Nat} (h : MapInv K t s) (hram : K.Ram pa) (hfree : pa ∉ s.free)
    (hpages : pa ∉ pages s.mem t) : Wp (kfree K pa) s (fun _ => MapInv K t) fun _ _ => True := by
  have ho : Owns K.Ram s (insert pa (pages s.mem t)) := by
    refine ⟨h.owns.nodup, fun p hp => ?_, fun p hp => ?_⟩
    · rintro (rfl | hpage)
      · exact hfree hp
      · exact h.owns.sep p hp hpage
    · rcases hp with (rfl | hpage) | hp
      · exact hram
      · exact h.owns.ok p (Or.inl hpage)
      · exact h.owns.ok p (Or.inr hp)
  refine Vm.wp_kfree ho hpages fun s' _ hsame hgive => ?_
  obtain ⟨hT, heq, -⟩ := h.table.frame fun q hq => hsame q fun heq => hpages (heq ▸ hq)
  refine ⟨hT.self, ?_⟩
  rw [heq]
  exact hgive.owns ho

/-- The step lemma. -/
theorem MapInv.step {op : MapOp} {s' : Phys} (h : MapInv K t s) (hrule : MapRule K t s op)
    (hstep : mapStep K t s op = some s') : MapInv K t s' := by
  cases op with
  | walk va alloc =>
    obtain ⟨r, hr⟩ := stateOf_eq hstep
    exact ((h.wp_walk (E := fun _ _ => True) hrule alloc).of_ok hr).1
  | mappages va size pa perm =>
    obtain ⟨r, hr⟩ := stateOf_eq hstep
    exact ((h.wp_mappages hrule.1 hrule.2.1 hrule.2.2.1 hrule.2.2.2).of_ok hr).1
  | uvmunmap va n doFree =>
    obtain ⟨r, hr⟩ := stateOf_eq hstep
    exact ((h.wp_uvmunmap hrule.1 hrule.2).of_ok hr).1
  | uvmclear va =>
    obtain ⟨r, hr⟩ := stateOf_eq hstep
    exact ((h.wp_uvmclear hrule).of_ok hr).1
  | kalloc =>
    obtain ⟨r, hr⟩ := stateOf_eq hstep
    exact h.wp_kalloc.of_ok hr
  | kfree pa =>
    obtain ⟨r, hr⟩ := stateOf_eq hstep
    exact (h.wp_kfree hrule.1 hrule.2.1 hrule.2.2).of_ok hr

end Effects

/-! ## The result -/

/-- What the calls in state `s` do to the map that table `t` represents. -/
structure IsMap (K : Image) (t : Nat) (s : Phys) : Prop where
  /-- Different virtual pages have different entries. -/
  slots : ∀ va va' slot, va < maxva → va' < maxva → walk t va false s = .ok (some slot) s →
    walk t va' false s = .ok (some slot) s → va / pgsize = va' / pgsize
  walk : ∀ va alloc r s', va < maxva → walk t va alloc s = .ok r s' →
    ∀ v < npages, mapOf s' t v = mapOf s t v
  /-- A successful `mappages` adds the pages of its range. -/
  mapped : ∀ va size pa perm s', 0 < size → va + size ≤ maxva → pa < 2 ^ 64 → perm < 1024 →
    mappages t va size pa perm s = .ok true s' → ∀ v < npages, mapOf s' t v =
      if va / pgsize ≤ v ∧ v ≤ (va + size - 1) / pgsize then
        some (pgrounddown (u64 (pa + (v - va / pgsize) * pgsize)), perm ||| pteV)
      else mapOf s t v
  /-- A failing one adds the first of them. -/
  failed : ∀ va size pa perm s', 0 < size → va + size ≤ maxva → pa < 2 ^ 64 → perm < 1024 →
    mappages t va size pa perm s = .ok false s' →
    ∃ k, va / pgsize + k ≤ (va + size - 1) / pgsize ∧ ∀ v < npages, mapOf s' t v =
      if va / pgsize ≤ v ∧ v < va / pgsize + k then
        some (pgrounddown (u64 (pa + (v - va / pgsize) * pgsize)), perm ||| pteV)
      else mapOf s t v
  unmapped : ∀ va n doFree s', MapRule K t s (.uvmunmap va n doFree) →
    uvmunmap K t va n doFree s = .ok () s' →
    (∀ v, va / pgsize ≤ v → v < va / pgsize + n → mapOf s t v ≠ none) ∧
      ∀ v < npages, mapOf s' t v =
        if va / pgsize ≤ v ∧ v < va / pgsize + n then none else mapOf s t v
  cleared : ∀ va s', va < maxva → uvmclear t va s = .ok () s' → ∀ v < npages, mapOf s' t v =
    if v = va / pgsize then (mapOf s t v).map fun x => (x.1, x.2 &&& (0x3FF - pteU))
    else mapOf s t v
  /-- The valid entries of the upper levels have no flag but `PTE_V`. -/
  interior : ∀ π p i, π.length < 2 → node (child s.mem) t π = some p → i < 512 →
    word (s.mem p) i &&& pteV ≠ 0 → pteFlags (word (s.mem p) i) = pteV
  /-- Without leaves `freewalk` returns and puts every page of the table on the free list
  once. -/
  freewalk : (∀ v < npages, mapOf s t v = none) → ∃ s', freewalk K t s = .ok () s' ∧
    s'.free.Nodup ∧ ∀ p, p ∈ s'.free ↔ p ∈ s.free ∨ p ∈ pages s.mem t

section Result

variable {K : Image} {s s' : Phys} {t v : Nat}

/-- An entry is a word. -/
theorem lookup_lt {mem : Nat → Page} {pte : Nat} (h : lookup mem t v = some pte) :
    pte < 2 ^ 64 := by
  obtain ⟨p, -, hentry⟩ := Option.bind_eq_some_iff.mp h
  unfold entry at hentry
  split at hentry
  next => exact Option.some.inj hentry ▸ word_lt (mem p) (v % 512)
  next => cases hentry

/-- What `mappages` has written. -/
theorem mapEntry_decode {pa perm j : Nat} (hperm : perm < 1024) :
    (pte2pa (mapEntry pa perm j), pteFlags (mapEntry pa perm j)) =
      (pgrounddown (u64 (pa + j * pgsize)), perm ||| pteV) := by
  have hflags : perm ||| pteV < 1024 := Nat.or_lt_two_pow (n := 10) hperm (by decide)
  have hlt : u64 (pa + j * pgsize) < 2 ^ 64 := Nat.mod_lt _ (by norm_num)
  rw [mapEntry, Nat.or_assoc, pte2pa_leaf hlt hflags, pteFlags_leaf hflags]
  rfl

/-- What `uvmclear` has written. -/
theorem clearU_decode {pte : Nat} (hpte : pte < 2 ^ 64) :
    (pte2pa (clearU pte), pteFlags (clearU pte)) =
      (pte2pa pte, pteFlags pte &&& (0x3FF - pteU)) := by
  have hshift : clearU pte >>> 10 = pte >>> 10 := by
    have hlt : pte >>> 10 < 2 ^ 54 := by
      rw [Nat.shiftRight_eq_div_pow]
      omega
    rw [clearU, Nat.shiftRight_and_distrib]
    exact (Nat.and_two_pow_sub_one_eq_mod _ 54).trans (Nat.mod_eq_of_lt hlt)
  rw [pte2pa, hshift, clearU, pteFlags, pteFlags, Nat.and_assoc, Nat.and_assoc]
  rfl

/-- An unmapped page. -/
theorem mapOf_eq_none : mapOf s t v = none ↔ lookup s.mem t v = none := by
  rw [mapOf, Option.map_eq_none_iff]

/-- The map after `mappages`. -/
theorem mapOf_fill {first n pa perm : Nat} (hperm : perm < 1024)
    (h : lookup s'.mem t v = fill (lookup s.mem t) first n (mapEntry pa perm) v) :
    mapOf s' t v = if first ≤ v ∧ v < first + n then
      some (pgrounddown (u64 (pa + (v - first) * pgsize)), perm ||| pteV) else mapOf s t v := by
  rw [mapOf, h, fill]
  split
  · rw [Option.map_some, mapEntry_decode hperm]
  · rfl

/-- Different pages have different entries. -/
theorem MapInv.slots {va va' : Nat} {slot : Slot} (h : MapInv K t s) (hva : va < maxva)
    (hva' : va' < maxva) (hw : walk t va false s = .ok (some slot) s)
    (hw' : walk t va' false s = .ok (some slot) s) : va / pgsize = va' / pgsize := by
  have hfind : ∀ {va}, va < maxva → walk t va false s = .ok (some slot) s →
      node (child s.mem) t (path (va / pgsize)) = some slot.page ∧
        va / pgsize % 512 = slot.idx := by
    intro va hva hw
    have hspec := (wp_walk_find (s := s) (t := t) (Q := fun r _ => r =
      (node (child s.mem) t (path (va / pgsize))).map (⟨·, va / pgsize % 512⟩))
      (E := fun _ _ => True) hva rfl).of_ok hw
    obtain ⟨p, hp, rfl⟩ := Option.map_eq_some_iff.mp hspec.symm
    exact ⟨hp, rfl⟩
  obtain ⟨hnode, hidx⟩ := hfind hva hw
  obtain ⟨hnode', hidx'⟩ := hfind hva' hw'
  have hpath := h.table.radix _ _ _ (path_length _).le (path_length _).le hnode hnode'
  exact path_inj (div_lt_npages hva) (div_lt_npages hva') hpath (hidx.trans hidx'.symm)

/-- What the invariant says of the map. -/
theorem MapInv.isMap (h : MapInv K t s) : IsMap K t s where
  slots va va' slot := h.slots
  walk va alloc r s' hva hw v hv := by
    have heffect := ((h.wp_walk (E := fun _ _ => True) hva alloc).of_ok hw).2 v hv
    rw [mapOf, heffect, mapOf]
  mapped va size pa perm s' hsize hva hpa hperm hm v hv := by
    obtain ⟨-, k, -, hk, hfill⟩ := (h.wp_mappages hsize hva hpa (by omega)).of_ok hm
    rw [mapOf_fill hperm (hfill v hv)]
    have hk := hk.mp rfl
    exact if_congr (by omega) rfl rfl
  failed va size pa perm s' hsize hva hpa hperm hm := by
    obtain ⟨-, k, hle, hk, hfill⟩ := (h.wp_mappages hsize hva hpa (by omega)).of_ok hm
    have hne : va / pgsize + k ≠ (va + size - 1) / pgsize + 1 := fun heq => by
      simpa using hk.mpr heq
    exact ⟨k, by omega, fun v hv => mapOf_fill hperm (hfill v hv)⟩
  unmapped va n doFree s' hrule hu := by
    obtain ⟨-, hmapped, hclear⟩ := (h.wp_uvmunmap hrule.1 hrule.2).of_ok hu
    refine ⟨fun v hge hlt hnone => hmapped v hge hlt (mapOf_eq_none.mp hnone), fun v hv => ?_⟩
    rw [mapOf, hclear v hv, clear]
    split <;> rfl
  cleared va s' hva hc v hv := by
    rw [mapOf, ((h.wp_uvmclear hva).of_ok hc).2 v hv]
    split
    next =>
      rw [mapOf, Option.map_map, Option.map_map]
      cases hl : lookup s.mem t v with
      | none => rfl
      | some pte => exact congrArg some (clearU_decode (lookup_lt hl))
    next => rfl
  interior π p i hπ hnode hi hvalid := by
    rw [and_pteV] at hvalid
    exact h.table.plain π p i hπ hnode hi (by omega)
  freewalk hnone := by
    have hreturns : Returns (freewalk K t) s fun _ s' => Trade s s' (pages s.mem t) ∅ :=
      wp_freewalk h.table (fun v hv => mapOf_eq_none.mp (hnone v hv)) h.owns fun _ ht => ht
    obtain ⟨_, s', hs', ht⟩ := returns_iff.mp hreturns
    refine ⟨s', hs', ht.nodup, fun p => ?_⟩
    have := ht.pages p
    simp only [Set.mem_empty_iff_false, false_or] at this
    rw [this, or_comm]

/-- Page tables are maps: in every state that a page table made by `uvmcreate` reaches by
calls with addresses below `MAXVA`, in any order and with any number of free pages. -/
theorem page_tables_are_maps {s₀ s₁ : Phys} (hfree : Owns K.Ram s₀ ∅)
    (hcreate : uvmcreate s₀ = .ok (some t) s₁) (hrun : Run (mapStep K t) (MapRule K t) s₁ s) :
    IsMap K t s := by
  have hinit : MapInv K t s₁ := by
    have hspec : Wp uvmcreate s₀ (fun r s => ∀ p, r = some p → MapInv K p s) fun _ _ => True := by
      refine wp_uvmcreate hfree (fun _ p hp => by cases hp) fun p s _ hT hpages _ ht _ q hq => ?_
      cases hq
      exact ⟨hT.self, by rw [hpages]; simpa using ht.owns hfree⟩
    exact hspec.of_ok hcreate t rfl
  exact (hrun.invariant hinit fun _ _ _ ht hrule hstep => ht.step hrule hstep).isMap

/-- A small kernel with twelve free pages. -/
def tinyImage : Image := ⟨0x80008000, 0x80007000, by decide, by decide, by decide⟩

def tinyPool : Phys := ⟨fun _ _ => 0, (List.range 12).map fun i => 0x80008000 + i * pgsize⟩

/-- ... and its memory after `uvmcreate`. -/
def tinyTable : Phys := (stateOf uvmcreate tinyPool).getD tinyPool

/-- The pool owns its pages. -/
theorem owns_tinyPool : Owns tinyImage.Ram tinyPool ∅ := by
  refine ⟨by decide, fun _ _ => Set.notMem_empty _, fun p hp => ?_⟩
  obtain hp | hp := hp
  · exact hp.elim
  · obtain ⟨i, hi, rfl⟩ := List.mem_map.mp hp
    rw [List.mem_range] at hi
    have hkend : tinyImage.kend = 0x80008000 := rfl
    unfold Image.Ram phystop kernbase pgsize
    omega

/-- Two pages are mapped, and the first one is unmapped again. -/
theorem page_tables_are_maps_two_pages : ∃ s,
    Run (mapStep tinyImage 0x80008000) (MapRule tinyImage 0x80008000) tinyTable s ∧
      mapOf s 0x80008000 5 = none ∧ mapOf s 0x80008000 6 = some (0x80101000, pteR ||| pteV) ∧
      IsMap tinyImage 0x80008000 s := by
  have hexec :
      ((mapStep tinyImage 0x80008000 tinyTable (.mappages 0x5000 0x2000 0x80100000 pteR)).bind
      fun s => (mapStep tinyImage 0x80008000 s (.uvmunmap 0x5000 1 false)).map
        fun s => (mapOf s 0x80008000 5, mapOf s 0x80008000 6)) =
      some (none, some (0x80101000, pteR ||| pteV)) := by
    decide +kernel
  obtain ⟨s₁, hs₁, hrest⟩ := Option.bind_eq_some_iff.mp hexec
  obtain ⟨s₂, hs₂, heq⟩ := Option.map_eq_some_iff.mp hrest
  obtain ⟨hunmapped, hmapped⟩ := Prod.mk.inj heq
  have hrun := (Run.refl.snoc (show MapRule tinyImage 0x80008000 tinyTable
      (.mappages 0x5000 0x2000 0x80100000 pteR) by refine ⟨?_, ?_, ?_, ?_⟩ <;> decide) hs₁).snoc
    (show MapRule tinyImage 0x80008000 s₁ (.uvmunmap 0x5000 1 false) from
      ⟨by decide, fun hfree => nomatch hfree⟩) hs₂
  have hcreate : uvmcreate tinyPool = .ok (some 0x80008000) tinyTable := rfl
  exact ⟨s₂, hrun, hunmapped, hmapped, page_tables_are_maps owns_tinyPool hcreate hrun⟩

/-- A table maps its own root and another page.  Unmapping the root with `do_free` set
loses the other page too. -/
theorem unmap_frees_root : ∃ s s',
    Run (mapStep tinyImage 0x80008000) (MapRule tinyImage 0x80008000) tinyTable s ∧
      uvmunmap tinyImage 0x80008000 0 1 true s = .ok () s' ∧
      mapOf s 0x80008000 1 = some (0x80100000, pteR ||| pteV) ∧ mapOf s' 0x80008000 1 = none := by
  have hexec : ((mapStep tinyImage 0x80008000 tinyTable (.mappages 0 1 0x80008000 pteR)).bind
      fun s => (mapStep tinyImage 0x80008000 s (.mappages 0x1000 1 0x80100000 pteR)).map
        fun s => (mapOf s 0x80008000 1,
          (stateOf (uvmunmap tinyImage 0x80008000 0 1 true) s).map fun s => mapOf s 0x80008000 1)) =
      some (some (0x80100000, pteR ||| pteV), some none) := by
    decide +kernel
  obtain ⟨s₁, hs₁, hrest⟩ := Option.bind_eq_some_iff.mp hexec
  obtain ⟨s₂, hs₂, heq⟩ := Option.map_eq_some_iff.mp hrest
  obtain ⟨hmap, hunmap⟩ := Prod.mk.inj heq
  obtain ⟨s₃, hs₃, hlost⟩ := Option.map_eq_some_iff.mp hunmap
  obtain ⟨_, hu⟩ := stateOf_eq hs₃
  have hrun := (Run.refl.snoc (show MapRule tinyImage 0x80008000 tinyTable
      (.mappages 0 1 0x80008000 pteR) by refine ⟨?_, ?_, ?_, ?_⟩ <;> decide) hs₁).snoc
    (show MapRule tinyImage 0x80008000 s₁ (.mappages 0x1000 1 0x80100000 pteR) by
      refine ⟨?_, ?_, ?_, ?_⟩ <;> decide) hs₂
  exact ⟨s₂, s₃, hrun, hu, hmap, hlost⟩

end Result

end Vm
end Xv6
