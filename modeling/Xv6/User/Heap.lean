import Mathlib.Data.List.TakeWhile
import Xv6.User.Umalloc

/-!
# The heap of the user-level allocator

The free blocks are a circular list in ascending order, with a gap between any two of
them.  Together with the blocks of the program they make up the memory that `sbrk` has
given, as long as the sizes fit into their 32 bits.

Main results:

- Theorem {lit}`freeBlock_spec`: `free` finds its place and joins the neighbours.
- Theorem {lit}`Inv.free`: `free` of a block of the program keeps the heap consistent.
-/

namespace Xv6
namespace Umalloc

open List Lib Function

/-! ## The free list -/

/-- The addresses of a list of blocks. -/
def addrs (xs : List Extent) : List Nat := xs.map Extent.addr

/-- The free blocks `fl`, in the order of their addresses. -/
structure FreeList (s : Heap) (fl : List Extent) : Prop where
  path : Path s.ptr base (addrs fl) base
  size_base : s.size base = 0
  size : ∀ x ∈ fl, s.size x.addr = x.len
  pos : ∀ x ∈ fl, 0 < x.len
  above : ∀ x ∈ fl, base < x.addr
  apart : Spaced fl

section FreeList

variable {s : Heap} {fl g₁ g₂ : List Extent} {bp p : Nat}

/-- The addresses of a list of blocks. -/
theorem mem_addrs {xs : List Extent} {a : Nat} : a ∈ addrs xs ↔ ∃ x ∈ xs, x.addr = a :=
  mem_map

theorem addrs_append (xs ys : List Extent) : addrs (xs ++ ys) = addrs xs ++ addrs ys :=
  map_append

/-- The nodes of the circle are distinct. -/
theorem FreeList.nodup (h : FreeList s fl) : (base :: addrs fl).Nodup := by
  refine nodup_cons.mpr ⟨?_, h.apart.nodup⟩
  intro hmem
  obtain ⟨x, hx, heq⟩ := mem_addrs.mp hmem
  have := h.above x hx
  omega

/-- The last address of a list of blocks, or `base`. -/
def lastAddr (xs : List Extent) : Nat := (base :: addrs xs).getLast (by simp)

theorem lastAddr_nil : lastAddr [] = base :=
  rfl

theorem lastAddr_concat (xs : List Extent) (x : Extent) : lastAddr (xs ++ [x]) = x.addr := by
  simp [lastAddr, addrs]

/-- The first address of a list of blocks, or `base`. -/
def firstAddr (xs : List Extent) : Nat := (addrs xs ++ [base]).head (by simp)

theorem firstAddr_nil : firstAddr [] = base :=
  rfl

theorem firstAddr_cons (x : Extent) (xs : List Extent) : firstAddr (x :: xs) = x.addr :=
  rfl

/-- It is a node of the circle. -/
theorem lastAddr_mem (xs : List Extent) : lastAddr xs ∈ base :: addrs xs :=
  getLast_mem _

/-- Every node of the circle ends a part of the list. -/
theorem exists_split {a : Nat} (ha : a ∈ base :: addrs fl) :
    ∃ g₁ g₂, fl = g₁ ++ g₂ ∧ a = lastAddr g₁ := by
  obtain rfl | ha := mem_cons.mp ha
  · exact ⟨[], fl, rfl, rfl⟩
  · obtain ⟨x, hx, rfl⟩ := mem_addrs.mp ha
    obtain ⟨l₁, l₂, rfl⟩ := append_of_mem hx
    exact ⟨l₁ ++ [x], l₂, by simp, (lastAddr_concat l₁ x).symm⟩

/-- The link from one part to the next. -/
theorem FreeList.ptr_lastAddr (h : FreeList s (g₁ ++ g₂)) :
    s.ptr (lastAddr g₁) = firstAddr g₂ := by
  have hpath := h.path
  rw [addrs_append] at hpath
  exact hpath.next_getLast

/-- The blocks of the first part end before the last of them or with it. -/
theorem FreeList.le_lastAddr (h : FreeList s (g₁ ++ g₂)) {x : Extent} (hx : x ∈ g₁) :
    x.addr ≤ lastAddr g₁ ∧ (x.addr ≠ lastAddr g₁ → x.addr + x.len < lastAddr g₁) := by
  obtain ⟨l, y, rfl⟩ : ∃ l y, g₁ = l ++ [y] := by
    have hne : g₁ ≠ [] := ne_nil_of_mem hx
    exact ⟨g₁.dropLast, g₁.getLast hne, (dropLast_append_getLast hne).symm⟩
  rw [lastAddr_concat]
  have hapart := (pairwise_append.mp h.apart).1
  obtain hx | hx := mem_append.mp hx
  · have hlt := (pairwise_append.mp hapart).2.2 x hx y (mem_singleton_self y)
    exact ⟨by omega, fun _ => hlt⟩
  · rw [mem_singleton.mp hx]
    exact ⟨Nat.le_refl _, fun hne => absurd rfl hne⟩

/-- The blocks of the second part start with the first of them or after it. -/
theorem FreeList.firstAddr_le (h : FreeList s (g₁ ++ g₂)) {x : Extent} (hx : x ∈ g₂) :
    firstAddr g₂ ≤ x.addr := by
  cases g₂ with
  | nil => cases hx
  | cons y l =>
    rw [firstAddr_cons]
    obtain rfl | hx := mem_cons.mp hx
    · exact Nat.le_refl _
    · have hapart := (pairwise_append.mp h.apart).2.1
      have hlt := rel_of_pairwise_cons hapart hx
      omega

/-- The second part lies above. -/
theorem FreeList.lastAddr_lt (h : FreeList s (g₁ ++ g₂)) {x : Extent} (hx : x ∈ g₂) :
    lastAddr g₁ < x.addr := by
  obtain heq | hmem := mem_cons.mp (lastAddr_mem g₁)
  · rw [heq]
    exact h.above x (mem_append_right _ hx)
  · obtain ⟨y, hy, heq⟩ := mem_addrs.mp hmem
    have hlt := (pairwise_append.mp h.apart).2.2 y hy x hx
    omega

/-! ## The search of `free` -/

/-- Where the loop stops, the block belongs. -/
theorem FreeList.split_of_stops (h : FreeList s (g₁ ++ g₂)) (hbase : base < bp)
    (hstop : stops s bp (lastAddr g₁) = true) :
    (∀ x ∈ g₁, x.addr < bp) ∧ lastAddr g₁ < bp ∧ ∀ x ∈ g₂, bp < x.addr := by
  have hptr := h.ptr_lastAddr
  unfold stops at hstop
  rw [decide_eq_true_iff, hptr] at hstop
  have hlast : lastAddr g₁ < bp ∧ ∀ x ∈ g₂, bp < x.addr := by
    cases g₂ with
    | nil =>
      rw [firstAddr_nil] at hstop
      refine ⟨?_, nofun⟩
      omega
    | cons y l =>
      have hlt := h.lastAddr_lt (mem_cons_self (a := y) (l := l))
      rw [firstAddr_cons] at hstop
      have hbetween : lastAddr g₁ < bp ∧ bp < y.addr := by omega
      refine ⟨hbetween.1, ?_⟩
      intro x hx
      have hle := h.firstAddr_le hx
      rw [firstAddr_cons] at hle
      omega
  refine ⟨?_, hlast⟩
  intro x hx
  have hle := (h.le_lastAddr hx).1
  omega

/-- There is a place to stop. -/
theorem FreeList.exists_stops (h : FreeList s fl) (hbase : base < bp)
    (hnot : ∀ x ∈ fl, x.addr ≠ bp) : ∃ a ∈ base :: addrs fl, stops s bp a = true := by
  have hsplit : fl = fl.takeWhile (fun x => x.addr < bp) ++ fl.dropWhile (fun x => x.addr < bp) :=
    (takeWhile_append_dropWhile).symm
  generalize hg₁ : fl.takeWhile (fun x => x.addr < bp) = g₁ at hsplit
  generalize hg₂ : fl.dropWhile (fun x => x.addr < bp) = g₂ at hsplit
  have hbefore : ∀ x ∈ g₁, x.addr < bp := by
    intro x hx
    rw [← hg₁] at hx
    simpa using mem_takeWhile_imp hx
  have hlast : lastAddr g₁ < bp := by
    obtain heq | hmem := mem_cons.mp (lastAddr_mem g₁)
    · rw [heq]
      exact hbase
    · obtain ⟨x, hx, heq⟩ := mem_addrs.mp hmem
      rw [← heq]
      exact hbefore x hx
  have h' : FreeList s (g₁ ++ g₂) := hsplit ▸ h
  refine ⟨lastAddr g₁, ?_, ?_⟩
  · rw [hsplit, addrs_append, ← cons_append]
    exact mem_append_left _ (lastAddr_mem g₁)
  · unfold stops
    rw [decide_eq_true_iff, h'.ptr_lastAddr]
    cases hcase : g₂ with
    | nil =>
      right
      rw [firstAddr_nil]
      obtain heq | hmem := mem_cons.mp (lastAddr_mem g₁)
      · exact ⟨by omega, Or.inl hlast⟩
      · obtain ⟨x, hx, heq⟩ := mem_addrs.mp hmem
        have habove := h'.above x (mem_append_left _ hx)
        exact ⟨by omega, Or.inl hlast⟩
    | cons y l =>
      left
      rw [firstAddr_cons]
      refine ⟨hlast, ?_⟩
      have hy : ¬ y.addr < bp := by
        have hne : fl.dropWhile (fun x => decide (x.addr < bp)) ≠ [] := by
          rw [hg₂, hcase]
          exact cons_ne_nil _ _
        have hhead := head_dropWhile_not (fun x : Extent => decide (x.addr < bp)) hne
        simp only [hg₂, hcase, head_cons] at hhead
        simpa using hhead
      have hmem : y ∈ fl := by
        rw [hsplit, hcase]
        exact mem_append_right _ mem_cons_self
      have hne := hnot y hmem
      omega

end FreeList

/-! ## Joining blocks -/

/-- The block `b` has been joined to the one above, and `rest` follows it; it is not yet
linked from the blocks `g₁` below. -/
structure Hooked (s : Heap) (g₁ rest : List Extent) (b : Extent) : Prop where
  path : Path (update s.ptr (lastAddr g₁) (s.ptr b.addr)) base (addrs (g₁ ++ rest)) base
  size : ∀ x ∈ b :: (g₁ ++ rest), s.size x.addr = x.len
  apart : Spaced (b :: rest)
  apart_rest : Spaced (g₁ ++ rest)

/-- The length of all blocks of a list. -/
def total (xs : List Extent) : Nat := (xs.map Extent.len).sum

theorem total_append (xs ys : List Extent) : total (xs ++ ys) = total xs + total ys := by
  simp [total]

theorem total_cons (x : Extent) (xs : List Extent) : total (x :: xs) = x.len + total xs := by
  simp [total]

/-- The length depends on the cells. -/
theorem total_perm {xs ys : List Extent} (h : (cells xs).Perm (cells ys)) :
    total xs = total ys := by
  have hlen := h.length_eq
  rw [length_cells, length_cells] at hlen
  exact hlen

section Join

variable {s : Heap} {g₁ g₂ : List Extent} {b : Extent}

/-- The block to be freed, with its place in the list. -/
structure Fits (s : Heap) (g₁ g₂ : List Extent) (b : Extent) : Prop where
  list : FreeList s (g₁ ++ g₂)
  size : s.size b.addr = b.len
  pos : 0 < b.len
  base_lt : base < b.addr
  before : ∀ x ∈ g₁, x.addr + x.len ≤ b.addr
  last : lastAddr g₁ < b.addr
  after : ∀ x ∈ g₂, b.addr + b.len ≤ x.addr
  fits : b.len + total (g₁ ++ g₂) < 2 ^ 32

/-- The block is not in the list. -/
theorem Fits.not_mem (h : Fits s g₁ g₂ b) : b.addr ∉ base :: addrs (g₁ ++ g₂) := by
  intro hmem
  have hbase := h.base_lt
  obtain heq | hmem := mem_cons.mp hmem
  · omega
  · obtain ⟨x, hx, heq⟩ := mem_addrs.mp hmem
    have hpos := h.pos
    obtain hx' | hx' := mem_append.mp hx
    · have := h.before x hx'
      have := h.list.pos x hx
      omega
    · have := h.after x hx'
      omega

/-- The size of another block. -/
theorem size_joinUpper_of_ne {bp p a : Nat} (hne : a ≠ bp) :
    (joinUpper s bp p).size a = s.size a := by
  unfold joinUpper
  split
  · exact update_of_ne hne _ _
  · rfl

/-- The link of another block. -/
theorem ptr_joinUpper_of_ne {bp p a : Nat} (hne : a ≠ bp) :
    (joinUpper s bp p).ptr a = s.ptr a := by
  unfold joinUpper
  split <;> exact update_of_ne hne _ _

/-- A path that does not meet the block is not changed by its own link. -/
theorem path_setPtr {link : Nat → Nat} {l : List Nat} {x p y z : Nat}
    (h : Path (update link p y) base l base) (hx : x ∉ base :: l) :
    Path (update (update link x z) p y) base l base := by
  refine h.congr ?_
  intro a ha
  have hne : a ≠ x := fun heq => hx (heq ▸ ha)
  obtain rfl | hp := eq_or_ne a p
  · rw [update_self, update_self]
  · rw [update_of_ne hp, update_of_ne hp, update_of_ne hne]

/-- The first `if` of `free`. -/
theorem hooked_joinUpper (h : Fits s g₁ g₂ b) :
    ∃ b' rest, b'.addr = b.addr ∧ Hooked (joinUpper s b.addr (lastAddr g₁)) g₁ rest b' ∧
      cells (b' :: rest) = cells (b :: g₂) ∧ b.len ≤ b'.len ∧ (∀ x ∈ rest, x ∈ g₂) := by
  have hptr := h.list.ptr_lastAddr
  have hnot := h.not_mem
  have hnodup := h.list.nodup
  have hpath := h.list.path
  have hsizes := h.list.size
  have hfits := h.fits
  obtain ⟨a, u⟩ := b
  have hbase : base < a := h.base_lt
  have hsize : s.size a = u := h.size
  have hafter : ∀ x ∈ g₂, a + u ≤ x.addr := h.after
  dsimp only at hnot hfits ⊢
  unfold joinUpper
  rw [hsize, hptr]
  split
  next hadj =>
    -- The block above begins where this one ends.
    cases g₂ with
    | nil =>
      rw [firstAddr_nil] at hadj
      omega
    | cons c rest =>
      rw [firstAddr_cons] at hadj
      rw [firstAddr_cons, hsizes c (mem_append_right _ mem_cons_self)]
      rw [total_append, total_cons] at hfits
      have huint : uint (u + c.len) = u + c.len := uint_of_lt (by omega)
      rw [huint]
      have hapart := (pairwise_append.mp h.list.apart).2.1
      have hgap : ∀ x ∈ rest, c.addr + c.len < x.addr := fun x hx =>
        rel_of_pairwise_cons hapart hx
      have hne : ∀ x ∈ g₁ ++ rest, x.addr ≠ a := by
        intro x hx heq
        apply hnot
        rw [mem_cons, mem_addrs]
        refine Or.inr ⟨x, ?_, heq⟩
        obtain hx | hx := mem_append.mp hx
        · exact mem_append_left _ hx
        · exact mem_append_right _ (mem_cons_of_mem _ hx)
      refine ⟨⟨a, u + c.len⟩, rest, rfl, ⟨?_, ?_, ?_, ?_⟩, ?_, Nat.le_add_right _ _,
        fun x hx => mem_cons_of_mem _ hx⟩
      · have hbypass : Path (update s.ptr (lastAddr g₁) (s.ptr c.addr)) base
            (addrs (g₁ ++ rest)) base := by
          rw [addrs_append] at hpath hnodup ⊢
          exact hpath.bypass hnodup
        have hx : a ∉ base :: addrs (g₁ ++ rest) := by
          rw [mem_cons, not_or]
          refine ⟨by omega, ?_⟩
          intro hmem
          obtain ⟨x, hx, heq⟩ := mem_addrs.mp hmem
          exact hne x hx heq
        have hset := path_setPtr (z := s.ptr c.addr) hbypass hx
        simpa [Heap.setPtr, Heap.setSize] using hset
      · intro x hx
        change update s.size a (u + c.len) x.addr = x.len
        obtain rfl | hx := mem_cons.mp hx
        · exact update_self _ _ _
        · rw [update_of_ne (hne x hx)]
          apply hsizes
          obtain hx | hx := mem_append.mp hx
          · exact mem_append_left _ hx
          · exact mem_append_right _ (mem_cons_of_mem _ hx)
      · refine pairwise_cons.mpr ⟨?_, (pairwise_cons.mp hapart).2⟩
        intro x hx
        have := hgap x hx
        simp only
        omega
      · obtain ⟨h₁, h₂, h₁₂⟩ := pairwise_append.mp h.list.apart
        exact pairwise_append.mpr ⟨h₁, (pairwise_cons.mp h₂).2,
          fun x hx y hy => h₁₂ x hx y (mem_cons_of_mem _ hy)⟩
      · have hc : c = ⟨a + u, c.len⟩ := by
          rw [hadj]
        rw [hc, cells_merge]
  next hadj =>
    refine ⟨⟨a, u⟩, g₂, rfl, ⟨?_, ?_, ?_, h.list.apart⟩, rfl, Nat.le_refl _, fun x hx => hx⟩
    · have hsame : update s.ptr (lastAddr g₁) (firstAddr g₂) = s.ptr := by
        rw [← hptr]
        exact update_eq_self _ _
      have hpath' : Path (update s.ptr (lastAddr g₁) (firstAddr g₂)) base
          (addrs (g₁ ++ g₂)) base := by
        rw [hsame]
        exact hpath
      have hset := path_setPtr (z := firstAddr g₂) hpath' hnot
      simpa [Heap.setPtr] using hset
    · intro x hx
      change s.size x.addr = x.len
      obtain rfl | hx := mem_cons.mp hx
      · exact hsize
      · exact hsizes x hx
    · refine pairwise_cons.mpr ⟨?_, (pairwise_append.mp h.list.apart).2.1⟩
      intro x hx
      have hle := h.list.firstAddr_le hx
      have hfirst : a + u ≤ firstAddr g₂ := by
        cases g₂ with
        | nil => cases hx
        | cons y l => exact hafter y mem_cons_self
      simp only
      omega

/-- The blocks below end before the block. -/
theorem Fits.lt_of_lastAddr (h : Fits s g₁ g₂ b) (hgap : ∀ x ∈ g₁, x.addr = lastAddr g₁ →
    x.addr + x.len ≠ b.addr) : ∀ x ∈ g₁, x.addr + x.len < b.addr := by
  intro x hx
  have hle := h.before x hx
  by_cases heq : x.addr = lastAddr g₁
  · have hne := hgap x hx heq
    omega
  · have hlt := (h.list.le_lastAddr hx).2 heq
    have hlast := h.last
    omega

/-- The second `if` of `free`, where the block below is joined. -/
theorem Fits.merge_lower {rest l : List Extent} {b' d : Extent} {s₁ : Heap}
    (h : Fits s (l ++ [d]) g₂ b) (haddr : b'.addr = b.addr) (hhook : Hooked s₁ (l ++ [d]) rest b')
    (hrest : ∀ x ∈ rest, x ∈ g₂) (hbase : s₁.size base = 0) (hlen : d.len + b'.len < 2 ^ 32)
    (hadj : d.addr + d.len = b'.addr) :
    FreeList (joinLower s₁ b'.addr d.addr) (l ++ ⟨d.addr, d.len + b'.len⟩ :: rest) := by
  have hsize := hhook.size
  have hd : s₁.size d.addr = d.len := hsize d (by simp)
  have hb : s₁.size b'.addr = b'.len := hsize b' mem_cons_self
  have hpath := hhook.path
  rw [lastAddr_concat] at hpath
  have hlist : FreeList s ((l ++ [d]) ++ g₂) := h.list
  have hmem : ∀ x ∈ l ++ [d] ++ rest, x ∈ (l ++ [d]) ++ g₂ := by
    intro x hx
    obtain hx | hx := mem_append.mp hx
    · exact mem_append_left _ hx
    · exact mem_append_right _ (hrest x hx)
  have hnodup : ∀ x ∈ l ++ rest, x.addr ≠ d.addr := by
    intro x hx
    have hnd := hhook.apart_rest
    rw [append_assoc, singleton_append] at hnd
    obtain ⟨-, h₂, h₁₂⟩ := pairwise_append.mp hnd
    obtain hx | hx := mem_append.mp hx
    · have := h₁₂ x hx d mem_cons_self
      omega
    · have := rel_of_pairwise_cons h₂ hx
      omega
  unfold joinLower
  rw [hd, if_pos hadj, hb, uint_of_lt hlen]
  refine ⟨?_, ?_, ?_, ?_, ?_, ?_⟩
  · simpa [addrs, Heap.setPtr, Heap.setSize] using hpath
  · change update s₁.size d.addr _ base = 0
    rw [update_of_ne]
    · exact hbase
    · have := hlist.above d (by simp)
      omega
  · intro x hx
    change update s₁.size d.addr _ x.addr = x.len
    have hcases : x = ⟨d.addr, d.len + b'.len⟩ ∨ x ∈ l ++ rest := by
      simp only [mem_append, mem_cons] at hx ⊢
      tauto
    obtain rfl | hx := hcases
    · exact update_self _ _ _
    · rw [update_of_ne (hnodup x hx)]
      apply hsize
      simp only [mem_append, mem_cons] at hx ⊢
      tauto
  · intro x hx
    simp only [mem_append, mem_cons] at hx
    obtain hx | rfl | hx := hx
    · exact hlist.pos x (by simp [hx])
    · have := hlist.pos d (by simp)
      simp only
      omega
    · exact hlist.pos x (mem_append_right _ (hrest x hx))
  · intro x hx
    simp only [mem_append, mem_cons] at hx
    obtain hx | rfl | hx := hx
    · exact hlist.above x (by simp [hx])
    · exact hlist.above d (by simp)
    · exact hlist.above x (mem_append_right _ (hrest x hx))
  · have happart := hhook.apart_rest
    rw [append_assoc, singleton_append] at happart
    obtain ⟨h₁, h₂, h₁₂⟩ := pairwise_append.mp happart
    refine pairwise_append.mpr ⟨h₁, ?_, ?_⟩
    · refine pairwise_cons.mpr ⟨?_, (pairwise_cons.mp h₂).2⟩
      intro x hx
      have := rel_of_pairwise_cons hhook.apart hx
      simp only
      omega
    · intro x hx y hy
      obtain rfl | hy := mem_cons.mp hy
      · exact h₁₂ x hx d mem_cons_self
      · exact h₁₂ x hx y (mem_cons_of_mem _ hy)

/-- The second `if` of `free`, where the block below is not adjacent. -/
theorem Fits.insert {rest : List Extent} {b' : Extent} {s₁ : Heap} (h : Fits s g₁ g₂ b)
    (haddr : b'.addr = b.addr) (hhook : Hooked s₁ g₁ rest b') (hrest : ∀ x ∈ rest, x ∈ g₂)
    (hlen : b.len ≤ b'.len) (hbase : s₁.size base = 0)
    (hadj : lastAddr g₁ + s₁.size (lastAddr g₁) ≠ b'.addr) :
    FreeList (joinLower s₁ b'.addr (lastAddr g₁)) (g₁ ++ b' :: rest) := by
  have hsize := hhook.size
  have hmem : ∀ x ∈ g₁ ++ rest, x ∈ g₁ ++ g₂ := by
    intro x hx
    obtain hx | hx := mem_append.mp hx
    · exact mem_append_left _ hx
    · exact mem_append_right _ (hrest x hx)
  have hnot : b'.addr ∉ base :: addrs (g₁ ++ rest) := by
    intro hbad
    apply h.not_mem
    rw [haddr] at hbad
    obtain heq | hbad := mem_cons.mp hbad
    · exact mem_cons.mpr (Or.inl heq)
    · obtain ⟨x, hx, heq⟩ := mem_addrs.mp hbad
      exact mem_cons_of_mem _ (mem_addrs.mpr ⟨x, hmem x hx, heq⟩)
  have hbelow : ∀ x ∈ g₁, x.addr + x.len < b.addr := by
    apply h.lt_of_lastAddr
    intro x hx heq hbad
    apply hadj
    rw [← heq, hsize x (mem_cons_of_mem _ (mem_append_left _ hx)), haddr]
    exact hbad
  have hne : b'.addr ≠ lastAddr g₁ := by
    have := h.last
    omega
  unfold joinLower
  rw [if_neg hadj]
  refine ⟨?_, hbase, ?_, ?_, ?_, ?_⟩
  · have hpath := hhook.path
    have hnodup : (base :: addrs (g₁ ++ rest)).Nodup := by
      refine nodup_cons.mpr ⟨?_, hhook.apart_rest.nodup⟩
      intro hbad
      obtain ⟨x, hx, heq⟩ := mem_addrs.mp hbad
      have := h.list.above x (hmem x hx)
      omega
    rw [addrs_append] at hpath hnodup hnot
    have hinsert := hpath.insert rfl hnodup hnot
    rw [addrs_append]
    refine Path.congr hinsert ?_
    intro a _
    change update s₁.ptr (lastAddr g₁) b'.addr a = update (update
      (update s₁.ptr (lastAddr g₁) (s₁.ptr b'.addr)) b'.addr
        (update s₁.ptr (lastAddr g₁) (s₁.ptr b'.addr) (lastAddr g₁))) (lastAddr g₁) b'.addr a
    obtain rfl | hp := eq_or_ne a (lastAddr g₁)
    · rw [update_self, update_self]
    · rw [update_of_ne hp, update_of_ne hp, update_self]
      obtain rfl | hb := eq_or_ne a b'.addr
      · rw [update_self]
      · rw [update_of_ne hb, update_of_ne hp]
  · intro x hx
    apply hsize
    simp only [mem_append, mem_cons] at hx ⊢
    tauto
  · intro x hx
    simp only [mem_append, mem_cons] at hx
    obtain hx | rfl | hx := hx
    · exact h.list.pos x (mem_append_left _ hx)
    · exact Nat.lt_of_lt_of_le h.pos hlen
    · exact h.list.pos x (mem_append_right _ (hrest x hx))
  · intro x hx
    simp only [mem_append, mem_cons] at hx
    obtain hx | rfl | hx := hx
    · exact h.list.above x (mem_append_left _ hx)
    · rw [haddr]
      exact h.base_lt
    · exact h.list.above x (mem_append_right _ (hrest x hx))
  · obtain ⟨h₁, h₂, h₁₂⟩ := pairwise_append.mp hhook.apart_rest
    refine pairwise_append.mpr ⟨h₁, hhook.apart, ?_⟩
    intro x hx y hy
    obtain rfl | hy := mem_cons.mp hy
    · rw [haddr]
      exact hbelow x hx
    · exact h₁₂ x hx y hy

/-- The two joins together. -/
theorem Fits.join (h : Fits s g₁ g₂ b) :
    ∃ fl, FreeList (joinLower (joinUpper s b.addr (lastAddr g₁)) b.addr (lastAddr g₁)) fl ∧
      (cells fl).Perm (cells (b :: (g₁ ++ g₂))) ∧ lastAddr g₁ ∈ base :: addrs fl := by
  obtain ⟨b', rest, haddr, hhook, hcells, hlen, hrest⟩ := hooked_joinUpper h
  have hbase : (joinUpper s b.addr (lastAddr g₁)).size base = 0 := by
    rw [size_joinUpper_of_ne]
    · exact h.list.size_base
    · have := h.base_lt
      omega
  have htotal : b'.len + total rest = b.len + total g₂ := by
    have := congrArg length hcells
    rw [length_cells, length_cells] at this
    simpa [total] using this
  have hfits := h.fits
  rw [total_append] at hfits
  have hperm : (cells (g₁ ++ b' :: rest)).Perm (cells (b :: (g₁ ++ g₂))) := by
    rw [cells_append, hcells, ← cells_append]
    exact cells_perm perm_middle
  by_cases hadj : lastAddr g₁ + (joinUpper s b.addr (lastAddr g₁)).size (lastAddr g₁) = b'.addr
  · -- The block below is not `base`, whose size is zero.
    obtain rfl | ⟨l, d, rfl⟩ := eq_nil_or_concat g₁
    · rw [lastAddr_nil] at hadj hbase
      have := h.base_lt
      omega
    · rw [concat_eq_append] at *
      rw [lastAddr_concat] at *
      rw [hhook.size d (by simp)] at hadj
      rw [total_append] at hfits
      have hd : total [d] = d.len := by simp [total]
      have hfree := h.merge_lower haddr hhook hrest hbase (by omega) hadj
      rw [haddr] at hfree
      refine ⟨_, hfree, ?_, ?_⟩
      · refine Perm.trans ?_ hperm
        have hb' : b' = ⟨d.addr + d.len, b'.len⟩ := by
          rw [hadj]
        rw [append_assoc, singleton_append, cells_append, cells_append, hb', cells_merge]
      · apply mem_cons_of_mem
        simp [addrs]
  · have hfree := h.insert haddr hhook hrest hlen hbase hadj
    rw [haddr] at hfree
    refine ⟨_, hfree, hperm, ?_⟩
    obtain heq | hmem := mem_cons.mp (lastAddr_mem g₁)
    · exact mem_cons.mpr (Or.inl heq)
    · rw [addrs_append]
      exact mem_cons_of_mem _ (mem_append_left _ hmem)

end Join

/-! ## `free` -/

/-- What a function leaves alone: the headers outside `w`, and the histories. -/
structure Frame (s s' : Heap) (w : List Nat) : Prop where
  ptr : ∀ a, a ∉ w → s'.ptr a = s.ptr a
  size : ∀ a, a ∉ w → s'.size a = s.size a
  live : s'.live = s.live
  got : s'.got = s.got
  brk : s'.brk = s.brk

/-- The first `if` writes the header of the block. -/
theorem frame_joinUpper (s : Heap) (bp p : Nat) : Frame s (joinUpper s bp p) [bp] where
  ptr a ha := ptr_joinUpper_of_ne (by simpa using ha)
  size a ha := size_joinUpper_of_ne (by simpa using ha)
  live := by unfold joinUpper; split <;> rfl
  got := by unfold joinUpper; split <;> rfl
  brk := by unfold joinUpper; split <;> rfl

/-- The second `if` writes the header of the block below. -/
theorem frame_joinLower (s : Heap) (bp p : Nat) : Frame s (joinLower s bp p) [p] where
  ptr a ha := by
    unfold joinLower
    split <;> exact update_of_ne (by simpa using ha) _ _
  size a ha := by
    unfold joinLower
    split
    · exact update_of_ne (by simpa using ha) _ _
    · rfl
  live := by unfold joinLower; split <;> rfl
  got := by unfold joinLower; split <;> rfl
  brk := by unfold joinLower; split <;> rfl

/-- One function after another. -/
theorem Frame.trans {s s' s'' : Heap} {w w' : List Nat} (h : Frame s s' w)
    (h' : Frame s' s'' w') : Frame s s'' (w ++ w') where
  ptr a ha := by
    rw [mem_append, not_or] at ha
    rw [h'.ptr a ha.2, h.ptr a ha.1]
  size a ha := by
    rw [mem_append, not_or] at ha
    rw [h'.size a ha.2, h.size a ha.1]
  live := h'.live.trans h.live
  got := h'.got.trans h.got
  brk := h'.brk.trans h.brk

/-- More headers may be written. -/
theorem Frame.mono {s s' : Heap} {w w' : List Nat} (h : Frame s s' w) (hsub : w ⊆ w') :
    Frame s s' w' :=
  { h with
    ptr := fun a ha => h.ptr a fun hmem => ha (hsub hmem)
    size := fun a ha => h.size a fun hmem => ha (hsub hmem) }

/-- `free` inserts a block into the list, within one turn around it. -/
theorem freeBlock_spec {s : Heap} {fl : List Extent} {b : Extent} (h : FreeList s fl)
    (hfreep : s.freep ∈ base :: addrs fl) (hsize : s.size b.addr = b.len) (hpos : 0 < b.len)
    (hbase : base < b.addr)
    (hdisj : ∀ x ∈ fl, x.addr + x.len ≤ b.addr ∨ b.addr + b.len ≤ x.addr)
    (hfits : b.len + total fl < 2 ^ 32) :
    ∃ s' fl', FreeList s' fl' ∧ s'.freep ∈ base :: addrs fl' ∧
      (cells fl').Perm (cells (b :: fl)) ∧ Frame s s' (b.addr :: base :: addrs fl) ∧
      ∀ fuel, fl.length < fuel → freeBlock fuel s b.addr = some s' := by
  have hnot : ∀ x ∈ fl, x.addr ≠ b.addr := by
    intro x hx heq
    have := hdisj x hx
    have := h.pos x hx
    omega
  -- The search, entered at `freep`.
  obtain ⟨l, hcircle, hperm⟩ := h.path.rotate hfreep
  have hlen : l.length = fl.length := by
    have := hperm.length_eq
    simpa [addrs] using this
  have hex : ∃ a ∈ s.freep :: l, stops s b.addr a = true := by
    obtain ⟨a, ha, hstop⟩ := h.exists_stops hbase hnot
    exact ⟨a, hperm.mem_iff.mpr ha, hstop⟩
  obtain ⟨p, hp, hstop, hwalk⟩ := follow_of_mem hcircle hex
  rw [hperm.mem_iff] at hp
  obtain ⟨g₁, g₂, rfl, rfl⟩ := exists_split hp
  obtain ⟨hbefore, hlast, hafter⟩ := h.split_of_stops hbase hstop
  have hfit : Fits s g₁ g₂ b := by
    refine ⟨h, hsize, hpos, hbase, ?_, hlast, ?_, hfits⟩
    · intro x hx
      have := hdisj x (mem_append_left _ hx)
      have := hbefore x hx
      omega
    · intro x hx
      have := hdisj x (mem_append_right _ hx)
      have := hafter x hx
      omega
  obtain ⟨fl', hlist, hcells, hmem⟩ := hfit.join
  refine ⟨{ joinLower (joinUpper s b.addr (lastAddr g₁)) b.addr (lastAddr g₁) with
    freep := lastAddr g₁ }, fl', ?_, hmem, hcells, ?_, ?_⟩
  · exact { hlist with }
  · have hframe := (frame_joinUpper s b.addr (lastAddr g₁)).trans
      (frame_joinLower (joinUpper s b.addr (lastAddr g₁)) b.addr (lastAddr g₁))
    have hsub : [b.addr] ++ [lastAddr g₁] ⊆ b.addr :: base :: addrs (g₁ ++ g₂) := by
      intro a ha
      rw [singleton_append, mem_cons, mem_singleton] at ha
      obtain rfl | rfl := ha
      · exact mem_cons_self
      · exact mem_cons_of_mem _ hp
    exact { hframe.mono hsub with }
  · intro fuel hfuel
    unfold freeBlock
    rw [hwalk fuel (by omega)]
    rfl

/-! ## The invariant -/

/-- The heap after the first call of `malloc`. -/
structure Inv (s : Heap) (fl : List Extent) : Prop extends FreeList s fl where
  freep : s.freep ∈ base :: addrs fl
  live_size : ∀ x ∈ s.live, s.size x.addr = x.len
  live_pos : ∀ x ∈ s.live, 0 < x.len
  perm : (cells (fl ++ s.live)).Perm (cells s.got)
  nodup_got : (cells s.got).Nodup
  got_lt : ∀ a ∈ cells s.got, base < a ∧ a < s.brk
  base_lt : base < s.brk

section Inv

variable {s s' : Heap} {fl fl' : List Extent}

/-- Free blocks and live ones are apart. -/
theorem Inv.nodup_cells (h : Inv s fl) : (cells (fl ++ s.live)).Nodup :=
  h.perm.nodup_iff.mpr h.nodup_got

/-- The header of a block is in it. -/
theorem addr_mem_cells {x : Extent} {xs : List Extent} (hx : x ∈ xs) (hpos : 0 < x.len) :
    x.addr ∈ cells xs :=
  mem_cells.mpr ⟨x, hx, Nat.le_refl _, by omega⟩

/-- Headers are in their blocks. -/
theorem addrs_subset_cells {xs : List Extent} (hpos : ∀ x ∈ xs, 0 < x.len) :
    addrs xs ⊆ cells xs := by
  intro a ha
  obtain ⟨x, hx, rfl⟩ := mem_addrs.mp ha
  exact addr_mem_cells hx (hpos x hx)

/-- The cells of the program are not those of the free list. -/
theorem Inv.not_mem_of_live (h : Inv s fl) {a : Nat} (ha : a ∈ cells s.live) :
    a ∉ base :: addrs fl := by
  have hnodup := h.nodup_cells
  rw [cells_append] at hnodup
  have hdisj := (nodup_append'.mp hnodup).2.2
  intro hmem
  obtain rfl | hmem := mem_cons.mp hmem
  · have hgot : base ∈ cells s.got := by
      rw [← h.perm.mem_iff, cells_append]
      exact mem_append_right _ ha
    exact Nat.lt_irrefl _ (h.got_lt base hgot).1
  · exact hdisj (addrs_subset_cells h.pos hmem) ha

/-- Two blocks are apart. -/
theorem le_or_le_of_mem {xs ys : List Extent} {x y : Extent} (h : (cells (xs ++ ys)).Nodup)
    (hx : x ∈ xs) (hy : y ∈ ys) (hxpos : 0 < x.len) (hypos : 0 < y.len) :
    x.addr + x.len ≤ y.addr ∨ y.addr + y.len ≤ x.addr := by
  obtain ⟨xs₁, xs₂, rfl⟩ := append_of_mem hx
  obtain ⟨ys₁, ys₂, rfl⟩ := append_of_mem hy
  have hperm : ((xs₁ ++ x :: xs₂) ++ (ys₁ ++ y :: ys₂)).Perm
      (x :: y :: ((xs₁ ++ xs₂) ++ (ys₁ ++ ys₂))) := by
    refine (perm_middle.append perm_middle).trans ?_
    rw [cons_append]
    exact perm_middle.cons x
  exact le_or_le_of_nodup ((cells_perm hperm).nodup_iff.mp h) hxpos hypos

/-- A function does not touch the memory of these blocks. -/
def Kept (s s' : Heap) (xs : List Extent) : Prop :=
  ∀ a ∈ cells xs, s'.ptr a = s.ptr a ∧ s'.size a = s.size a

/-- Nothing has changed. -/
theorem Kept.refl (s : Heap) (xs : List Extent) : Kept s s xs :=
  fun _ _ => ⟨rfl, rfl⟩

/-- One function after another. -/
theorem Kept.trans {s'' : Heap} {xs : List Extent} (h : Kept s s' xs) (h' : Kept s' s'' xs) :
    Kept s s'' xs :=
  fun a ha => ⟨(h' a ha).1.trans (h a ha).1, (h' a ha).2.trans (h a ha).2⟩

/-- Blocks outside what is written. -/
theorem Frame.kept {w : List Nat} {xs : List Extent} (h : Frame s s' w)
    (hnot : ∀ a ∈ cells xs, a ∉ w) : Kept s s' xs :=
  fun a ha => ⟨h.ptr a (hnot a ha), h.size a (hnot a ha)⟩

/-- Inserting a block into the free list, whatever its origin. -/
theorem Inv.freeBlock {b : Extent} {live : List Extent} (h : FreeList s fl)
    (hfreep : s.freep ∈ base :: addrs fl) (hsize : s.size b.addr = b.len)
    (hpos : ∀ x ∈ b :: live, 0 < x.len) (hlive : ∀ x ∈ live, s.size x.addr = x.len)
    (hperm : (cells (fl ++ b :: live)).Perm (cells s.got)) (hnodup : (cells s.got).Nodup)
    (hgot : ∀ a ∈ cells s.got, base < a ∧ a < s.brk) (hbrk : base < s.brk)
    (hunits : s.units < 2 ^ 32) :
    ∃ s' fl', Inv { s' with live := live } fl' ∧ Kept s s' live ∧ s'.live = s.live ∧
      s'.got = s.got ∧ (cells fl').Perm (cells (b :: fl)) ∧
      ∀ fuel, fl.length < fuel → freeBlock fuel s b.addr = some s' := by
  have hnd := hperm.nodup_iff.mpr hnodup
  have hbpos := hpos b mem_cons_self
  have hbmem : b.addr ∈ cells (b :: live) := addr_mem_cells mem_cons_self hbpos
  have hbase : base < b.addr := by
    refine (hgot b.addr (hperm.mem_iff.mp ?_)).1
    rw [cells_append]
    exact mem_append_right _ hbmem
  have hfits : b.len + total fl < 2 ^ 32 := by
    have htotal := total_perm hperm
    rw [total_append, total_cons] at htotal
    have hu : total s.got = s.units := rfl
    omega
  obtain ⟨s', fl', hlist, hfreep', hcells, hframe, hfree⟩ := freeBlock_spec h hfreep hsize hbpos
    hbase (fun x hx => le_or_le_of_mem hnd hx mem_cons_self (h.pos x hx) hbpos) hfits
  -- The memory of the program is apart from the free blocks and from the new one.
  have hnot : ∀ a ∈ cells live, a ∉ b.addr :: base :: addrs fl := by
    intro a ha hmem
    rw [cells_append, cells_cons] at hnd
    obtain ⟨-, hnd', hdisj⟩ := nodup_append'.mp hnd
    obtain rfl | hmem := mem_cons.mp hmem
    · refine (nodup_append'.mp hnd').2.2 ?_ ha
      rw [mem_range'_1]
      omega
    obtain rfl | hmem := mem_cons.mp hmem
    · have hmem' : base ∈ cells s.got := by
        rw [← hperm.mem_iff, cells_append, cells_cons]
        exact mem_append_right _ (mem_append_right _ ha)
      exact Nat.lt_irrefl _ (hgot base hmem').1
    · exact hdisj (addrs_subset_cells h.pos hmem) (mem_append_right _ ha)
  have hkept : Kept s s' live := hframe.kept hnot
  refine ⟨s', fl', ?_, hkept, hframe.live, hframe.got, hcells, hfree⟩
  refine ⟨{ hlist with }, hfreep',
    ?_, fun x hx => hpos x (mem_cons_of_mem _ hx), ?_, ?_, ?_, ?_⟩
  · intro x hx
    have hx' := addr_mem_cells hx (hpos x (mem_cons_of_mem _ hx))
    exact ((hkept _ hx').2).trans (hlive x hx)
  · change (cells (fl' ++ live)).Perm (cells s'.got)
    rw [hframe.got]
    refine Perm.trans ?_ hperm
    rw [cells_append]
    refine (hcells.append_right _).trans ?_
    rw [← cells_append]
    exact cells_perm perm_middle.symm
  · change (cells s'.got).Nodup
    rw [hframe.got]
    exact hnodup
  · change ∀ a ∈ cells s'.got, base < a ∧ a < s'.brk
    rw [hframe.got, hframe.brk]
    exact hgot
  · change base < s'.brk
    rw [hframe.brk]
    exact hbrk

/-- `free` of a block of the program. -/
theorem Inv.free {ap : Nat} (h : Inv s fl) (hunits : s.units < 2 ^ 32) (hap : Live s ap) :
    ∃ s' fl' x, Inv s' fl' ∧ x ∈ s.live ∧ ap = headerSize * (x.addr + 1) ∧
      s.live.Perm (x :: s'.live) ∧ Kept s s' s'.live ∧ s'.got = s.got ∧
      ∀ fuel, fl.length < fuel → Umalloc.free fuel s ap = some s' := by
  obtain ⟨y, hy, rfl⟩ := hap
  have hbp : headerSize * (y.addr + 1) / headerSize - 1 = y.addr := by
    rw [Nat.mul_div_cancel_left _ (by decide)]
    rfl
  obtain ⟨x, l₁, l₂, -, hx, hlive, herase⟩ := exists_of_eraseP
    (p := fun x : Extent => decide (x.addr = y.addr)) hy (decide_eq_true rfl)
  have hxaddr : x.addr = y.addr := of_decide_eq_true hx
  have hxmem : x ∈ s.live := by
    rw [hlive]
    exact mem_append_right _ mem_cons_self
  have hliveperm : s.live.Perm (x :: (l₁ ++ l₂)) := by
    rw [hlive]
    exact perm_middle
  have hperm : (cells (fl ++ x :: (l₁ ++ l₂))).Perm (cells s.got) :=
    (cells_perm (hliveperm.symm.append_left fl)).trans h.perm
  obtain ⟨s', fl', hinv, hkept, hlive', hgot, -, hfree⟩ := Inv.freeBlock h.toFreeList h.freep
    (h.live_size x hxmem)
    (fun z hz => h.live_pos z (hliveperm.mem_iff.mpr hz))
    (fun z hz => h.live_size z (hliveperm.mem_iff.mpr (mem_cons_of_mem _ hz)))
    hperm h.nodup_got h.got_lt h.base_lt hunits
  refine ⟨{ s' with live := l₁ ++ l₂ }, fl', x, hinv, hxmem, by rw [hxaddr], hliveperm, hkept, hgot,
    ?_⟩
  intro fuel hfuel
  unfold Umalloc.free
  simp only [hbp]
  rw [← hxaddr, hfree fuel hfuel, Option.map_some, hlive']
  simp only [hxaddr]
  rw [herase]

end Inv

end Umalloc
end Xv6
