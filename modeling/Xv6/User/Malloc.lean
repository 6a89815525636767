import Xv6.User.Heap

/-!
# Allocation from the heap

`malloc` goes round the free list once, asks `sbrk` for memory when no block is large
enough, and then finds a block on the second round.

Main results:

- Theorem {lit}`Inv.take`: a block or the upper part of it goes to the program.
- Theorem {lit}`Inv.malloc`: `malloc` ends, with a block or without one.
- Theorem {lit}`heap_consistent`: the heap in every state that a program can reach.
-/

namespace Xv6
namespace Umalloc

open List Lib Function

/-! ## Taking a block -/

section Take

variable {s : Heap} {g₁ g₂ : List Extent} {c : Extent} {n : Nat}

theorem mem_of_append_cons {x : Extent} (hx : x ∈ g₁ ++ g₂) : x ∈ g₁ ++ c :: g₂ :=
  (mem_append.mp hx).elim (mem_append_left _)
    fun h => mem_append_right _ (mem_cons_of_mem c h)

/-- The addresses in front of a block are apart from it. -/
theorem lastAddr_mem_append (g₁ g₂ : List Extent) : lastAddr g₁ ∈ base :: addrs (g₁ ++ g₂) := by
  obtain heq | hmem := mem_cons.mp (lastAddr_mem g₁)
  · rw [heq]
    exact mem_cons_self
  · rw [addrs_append]
    exact mem_cons_of_mem _ (mem_append_left _ hmem)

/-- A block of the right size leaves the list. -/
theorem Inv.take_exact (h : Inv s (g₁ ++ c :: g₂)) :
    Inv { s.setPtr (lastAddr g₁) (s.ptr c.addr) with
      freep := lastAddr g₁, live := c :: s.live } (g₁ ++ g₂) := by
  have hcmem : c ∈ g₁ ++ c :: g₂ := mem_append_right _ mem_cons_self
  have hpath := h.path
  have hnodup := h.toFreeList.nodup
  rw [addrs_append] at hpath hnodup
  refine ⟨⟨?_, h.size_base, fun x hx => h.size x (mem_of_append_cons hx),
    fun x hx => h.pos x (mem_of_append_cons hx), fun x hx => h.above x (mem_of_append_cons hx), ?_⟩,
    lastAddr_mem_append g₁ g₂, ?_, ?_, ?_, h.nodup_got, h.got_lt, h.base_lt⟩
  · rw [addrs_append]
    exact hpath.bypass hnodup
  · exact Pairwise.sublist (Sublist.append_left (sublist_cons_self c g₂) g₁) h.apart
  · exact forall_mem_cons.mpr ⟨h.size c hcmem, h.live_size⟩
  · exact forall_mem_cons.mpr ⟨h.pos c hcmem, h.live_pos⟩
  · refine (cells_perm ?_).trans h.perm
    refine perm_middle.trans ?_
    rw [← cons_append]
    exact perm_middle.symm.append_right _

/-- A larger block is cut, and the program gets its upper part. -/
theorem Inv.take_split (h : Inv s (g₁ ++ c :: g₂)) (hn : 0 < n) (hlt : n < c.len) :
    Inv { (s.setSize c.addr (c.len - n)).setSize (c.addr + (c.len - n)) n with
        freep := lastAddr g₁, live := ⟨c.addr + (c.len - n), n⟩ :: s.live }
      (g₁ ++ ⟨c.addr, c.len - n⟩ :: g₂) ∧ c.addr + (c.len - n) ∉ cells s.live := by
  have hcmem : c ∈ g₁ ++ c :: g₂ := mem_append_right _ mem_cons_self
  generalize hq : c.addr + (c.len - n) = q
  -- The new header lies inside the old block, so no other header is written.
  have hnodup := h.nodup_cells
  have hlive : ∀ a ∈ cells s.live, a ≠ q ∧ a ≠ c.addr := by
    rw [cells_append] at hnodup
    have hdisj := (nodup_append'.mp hnodup).2.2
    intro a ha
    refine ⟨?_, ?_⟩
    · rintro rfl
      refine hdisj (mem_cells.mpr ⟨c, hcmem, ?_, ?_⟩) ha
      · omega
      · omega
    · rintro rfl
      exact hdisj (addr_mem_cells hcmem (h.pos c hcmem)) ha
  obtain ⟨happ₁, happ₂, hbetween⟩ := pairwise_append.mp h.apart
  obtain ⟨hafter, happ₃⟩ := pairwise_cons.mp happ₂
  have hbefore : ∀ x ∈ g₁, x.addr + x.len < c.addr := fun x hx =>
    hbetween x hx c mem_cons_self
  have hother : ∀ x ∈ g₁ ++ g₂, x.addr ≠ q ∧ x.addr ≠ c.addr := by
    intro x hx
    obtain hx | hx := mem_append.mp hx
    · have := hbefore x hx
      omega
    · have := hafter x hx
      omega
  have hbase : base ≠ q ∧ base ≠ c.addr := by
    have := h.above c hcmem
    omega
  have hcq : c.addr ≠ q := by omega
  have hsize : ∀ a, a ≠ q ∧ a ≠ c.addr →
      ((s.setSize c.addr (c.len - n)).setSize q n).size a = s.size a := by
    rintro a ⟨haq, hac⟩
    change update (update s.size c.addr (c.len - n)) q n a = _
    rw [update_of_ne haq, update_of_ne hac]
  have hmem : ∀ x ∈ g₁ ++ ⟨c.addr, c.len - n⟩ :: g₂, x ∈ g₁ ++ g₂ ∨ x = ⟨c.addr, c.len - n⟩ := by
    intro x hx
    rw [mem_append, mem_cons] at hx
    rw [mem_append]
    tauto
  refine ⟨⟨⟨?_, ?_, ?_, ?_, ?_, ?_⟩, ?_, ?_, ?_, ?_, h.nodup_got, h.got_lt, h.base_lt⟩, ?_⟩
  · have hpath := h.path
    rw [addrs_append] at hpath ⊢
    exact hpath
  · exact (hsize base hbase).trans h.size_base
  · intro x hx
    obtain hx | rfl := hmem x hx
    · exact (hsize _ (hother x hx)).trans (h.size x (mem_of_append_cons hx))
    · change update (update s.size c.addr (c.len - n)) q n c.addr = c.len - n
      rw [update_of_ne hcq, update_self]
  · intro x hx
    obtain hx | rfl := hmem x hx
    · exact h.pos x (mem_of_append_cons hx)
    · dsimp only
      omega
  · intro x hx
    obtain hx | rfl := hmem x hx
    · exact h.above x (mem_of_append_cons hx)
    · exact h.above c hcmem
  · refine pairwise_append.mpr ⟨happ₁, pairwise_cons.mpr ⟨?_, happ₃⟩, ?_⟩
    · intro x hx
      have := hafter x hx
      dsimp only
      omega
    · intro x hx y hy
      obtain rfl | hy := mem_cons.mp hy
      · exact hbefore x hx
      · exact hbetween x hx y (mem_cons_of_mem _ hy)
  · exact lastAddr_mem_append g₁ _
  · refine forall_mem_cons.mpr ⟨update_self _ _ _, ?_⟩
    intro x hx
    have hx' := hlive x.addr (addr_mem_cells hx (h.live_pos x hx))
    exact (hsize _ hx').trans (h.live_size x hx)
  · exact forall_mem_cons.mpr ⟨hn, h.live_pos⟩
  · -- The two parts of the block, brought together.
    refine Perm.trans ?_ h.perm
    have hparts : ((g₁ ++ ⟨c.addr, c.len - n⟩ :: g₂) ++ ⟨q, n⟩ :: s.live).Perm
        (⟨c.addr, c.len - n⟩ :: ⟨q, n⟩ :: ((g₁ ++ g₂) ++ s.live)) := by
      refine (perm_middle.append_right _).trans ?_
      rw [cons_append]
      exact perm_middle.cons _
    have hwhole : (c :: ((g₁ ++ g₂) ++ s.live)).Perm ((g₁ ++ c :: g₂) ++ s.live) := by
      rw [← cons_append]
      exact perm_middle.symm.append_right _
    refine (cells_perm hparts).trans (Perm.trans ?_ (cells_perm hwhole))
    rw [← hq, cells_merge, show c.len - n + n = c.len by omega]
  · exact fun hmem => (hlive q hmem).1 rfl

/-- The end of `malloc`: the program gets a block of `n` units. -/
theorem Inv.take (h : Inv s (g₁ ++ c :: g₂)) (hn : 0 < n) (hle : n ≤ c.len) :
    ∃ s' fl' q, Umalloc.take s (lastAddr g₁) n = (headerSize * (q + 1), s') ∧ Inv s' fl' ∧
      s'.live = ⟨q, n⟩ :: s.live ∧ Kept s s' s.live ∧ s'.got = s.got := by
  have hcmem : c ∈ g₁ ++ c :: g₂ := mem_append_right _ mem_cons_self
  have hptr : s.ptr (lastAddr g₁) = c.addr := h.toFreeList.ptr_lastAddr
  have hsize := h.size c hcmem
  have hnot : ∀ a ∈ cells s.live, a ∉ base :: addrs (g₁ ++ c :: g₂) :=
    fun a ha => h.not_mem_of_live ha
  unfold Umalloc.take
  simp only [hptr, hsize]
  by_cases heq : c.len = n
  · rw [if_pos heq]
    refine ⟨_, g₁ ++ g₂, c.addr, rfl, ?_, rfl, ?_, rfl⟩
    · rw [← heq]
      exact h.take_exact
    · intro a ha
      have hne : a ≠ lastAddr g₁ := fun hlast =>
        hnot a ha (hlast ▸ lastAddr_mem_append g₁ (c :: g₂))
      exact ⟨update_of_ne hne _ _, rfl⟩
  · rw [if_neg heq]
    have hself : (s.setSize c.addr (c.len - n)).size c.addr = c.len - n :=
      update_self _ _ _
    simp only [hself]
    obtain ⟨hinv, hq⟩ := h.take_split hn (by omega)
    refine ⟨_, g₁ ++ ⟨c.addr, c.len - n⟩ :: g₂, c.addr + (c.len - n), rfl, hinv, rfl, ?_, rfl⟩
    intro a ha
    have hac : a ≠ c.addr := by
      rintro rfl
      refine hnot _ ha (mem_cons_of_mem _ ?_)
      exact mem_addrs.mpr ⟨c, hcmem, rfl⟩
    have haq : a ≠ c.addr + (c.len - n) := fun heq => hq (heq ▸ ha)
    refine ⟨rfl, ?_⟩
    change update (update s.size c.addr (c.len - n)) _ n a = _
    rw [update_of_ne haq, update_of_ne hac]

end Take

/-! ## More memory -/

section Malloc

variable {s : Heap} {fl : List Extent} {n : Nat}

/-- `morecore` asks for enough. -/
theorem le_coreUnits (n : Nat) : n ≤ coreUnits n ∧ 0 < coreUnits n := by
  unfold coreUnits
  split
  · omega
  · omega

/-- `morecore` with memory from `sbrk`: the free list then has a block that is large enough. -/
theorem Inv.morecore (h : Inv s fl) (gap : Nat) (hunits : s.units + coreUnits n < 2 ^ 32) :
    ∃ s' fl', Inv s' fl' ∧ s'.live = s.live ∧ s'.got = s.got ++ [⟨s.brk + gap, coreUnits n⟩] ∧
      s'.units = s.units + coreUnits n ∧ Kept s s' s.live ∧ (∃ x ∈ fl', n ≤ x.len) ∧
      ∀ fuel, fl.length < fuel → Umalloc.morecore fuel s n (some gap) = some (some s') := by
  obtain ⟨hle, hpos⟩ := le_coreUnits n
  generalize hb : (⟨s.brk + gap, coreUnits n⟩ : Extent) = b
  have hbaddr : b.addr = s.brk + gap := by rw [← hb]
  have hblen : b.len = coreUnits n := by rw [← hb]
  generalize hs₁ : ({ s with brk := s.brk + gap + coreUnits n, got := s.got ++ [b] } : Heap).setSize
    b.addr b.len = s₁
  -- The new memory is above all blocks.
  have hcells : ∀ a ∈ cells (fl ++ s.live), base < a ∧ a < s.brk :=
    fun a ha => h.got_lt a (h.perm.mem_iff.mp ha)
  have hne : ∀ a ∈ cells (fl ++ s.live), a ≠ b.addr := by
    intro a ha
    have := hcells a ha
    omega
  have hsize : ∀ a, a ≠ b.addr → s₁.size a = s.size a := by
    intro a ha
    rw [← hs₁]
    exact update_of_ne ha _ _
  have hfl : ∀ x ∈ fl, x.addr ≠ b.addr := fun x hx =>
    hne _ (by rw [cells_append]; exact mem_append_left _ (addr_mem_cells hx (h.pos x hx)))
  have hlive : ∀ x ∈ s.live, x.addr ≠ b.addr := fun x hx =>
    hne _ (by
      rw [cells_append]
      exact mem_append_right _ (addr_mem_cells hx (h.live_pos x hx)))
  have hbase : base ≠ b.addr := by
    have := h.base_lt
    omega
  have hlist : FreeList s₁ fl :=
    ⟨by rw [← hs₁]; exact h.path, (hsize base hbase).trans h.size_base,
      fun x hx => (hsize _ (hfl x hx)).trans (h.size x hx), h.pos, h.above, h.apart⟩
  have hgot : s₁.got = s.got ++ [b] := by rw [← hs₁]; rfl
  have hbrk : s₁.brk = s.brk + gap + coreUnits n := by rw [← hs₁]; rfl
  have hunits₁ : s₁.units = s.units + coreUnits n := by
    unfold Heap.units
    rw [hgot, map_append, sum_append, map_singleton, sum_singleton, hblen]
  have hperm₁ : (cells (fl ++ b :: s.live)).Perm (cells s₁.got) := by
    rw [hgot, cells_append s.got]
    refine (cells_perm perm_middle).trans ?_
    rw [cells_cons, ← append_nil (range' b.addr b.len), ← cells_nil, ← cells_cons]
    exact (Perm.append_left _ h.perm).trans perm_append_comm
  have hnodup₁ : (cells s₁.got).Nodup := by
    rw [hgot, cells_append]
    refine nodup_append'.mpr ⟨h.nodup_got, ?_, ?_⟩
    · rw [cells_cons, cells_nil, append_nil]
      exact nodup_range'
    · intro a ha ha'
      obtain ⟨x, hx, hle', -⟩ := mem_cells.mp ha'
      rw [mem_singleton.mp hx] at hle'
      have := h.got_lt a ha
      omega
  have hgot_lt : ∀ a ∈ cells s₁.got, base < a ∧ a < s₁.brk := by
    intro a ha
    rw [hgot, cells_append, mem_append] at ha
    have hlt := h.base_lt
    obtain ha | ha := ha
    · have := h.got_lt a ha
      omega
    · obtain ⟨x, hx, hle', hlt'⟩ := mem_cells.mp ha
      rw [mem_singleton.mp hx] at hle' hlt'
      omega
  have hbrk_lt : base < s₁.brk := by
    have := h.base_lt
    omega
  obtain ⟨s', fl', hinv, hkept, hlive', hgot', hperm, hfree⟩ := Inv.freeBlock hlist
    (by rw [← hs₁]; exact h.freep) (by rw [← hs₁]; exact update_self _ _ _)
    (forall_mem_cons.mpr ⟨hblen ▸ hpos, h.live_pos⟩)
    (fun x hx => (hsize _ (hlive x hx)).trans (h.live_size x hx)) hperm₁ hnodup₁ hgot_lt hbrk_lt
    (by omega)
  have hs'live : s'.live = s.live := by
    rw [hlive', ← hs₁]
    rfl
  have hs' : ({ s' with live := s.live } : Heap) = s' := by rw [← hs'live]
  rw [hs'] at hinv
  refine ⟨s', fl', hinv, hs'live, ?_, ?_, ?_, ?_, ?_⟩
  · rw [hgot', hgot]
  · rw [← hunits₁]
    unfold Heap.units
    rw [hgot']
  · have hfirst : Kept s s₁ s.live := by
      intro a ha
      refine ⟨by rw [← hs₁]; rfl, hsize a (hne a ?_)⟩
      rw [cells_append]
      exact mem_append_right _ ha
    exact hfirst.trans hkept
  · obtain ⟨x, hx, hstart, hend⟩ := hinv.apart.exists_cover (a := b.addr) (n := b.len)
      (hblen ▸ hpos) (by
      intro i hi hi'
      refine hperm.mem_iff.mpr (mem_cells.mpr ⟨b, mem_cons_self, hi, hi'⟩))
    exact ⟨x, hx, by omega⟩
  · intro fuel hfuel
    have hmore : Umalloc.morecore fuel s n (some gap) =
        (Umalloc.freeBlock fuel s₁ b.addr).map some := by
      rw [← hs₁, ← hb]
      rfl
    rw [hmore, hfree fuel hfuel]
    rfl

/-! ## The search -/

/-- What `malloc` does when it has come back to `freep`. -/
def refill (fuel n : Nat) (sbrks : List (Option Nat)) (s : Heap) : Option (Nat × Heap) :=
  match Umalloc.morecore fuel s n (sbrks.headD none) with
  | none => none
  | some none => some (0, s)
  | some (some s') => mallocLoop fuel n s'.freep sbrks.tail s'

/-- The search from `a` up to `freep` stops in front of a large block or asks for memory. -/
theorem mallocLoop_path {a : Nat} {l : List Nat} (hpath : Path s.ptr a l s.freep)
    (hnot : s.freep ∉ l) (sbrks : List (Option Nat)) :
    (∃ y ∈ a :: l, n ≤ s.size (s.ptr y) ∧
      ∀ fuel, l.length < fuel → mallocLoop fuel n a sbrks s = some (Umalloc.take s y n)) ∨
    (∀ y ∈ a :: l, s.size (s.ptr y) < n) ∧
      ∀ fuel, mallocLoop (fuel + l.length + 1) n a sbrks s = refill fuel n sbrks s := by
  induction l generalizing a with
  | nil =>
    have hptr : s.ptr a = s.freep := hpath
    by_cases hbig : n ≤ s.size (s.ptr a)
    · refine Or.inl ⟨a, mem_singleton_self a, hbig, ?_⟩
      intro fuel hfuel
      obtain ⟨m, rfl⟩ := Nat.exists_eq_succ_of_ne_zero (Nat.ne_of_gt hfuel)
      simp only [mallocLoop, if_pos hbig]
    · refine Or.inr ⟨?_, ?_⟩
      · intro y hy
        rw [mem_singleton.mp hy]
        omega
      · intro fuel
        simp only [length_nil, Nat.add_zero, mallocLoop, if_neg hbig, if_pos hptr]
        rfl
  | cons b l ih =>
    obtain ⟨hptr, hrest⟩ := hpath
    rw [mem_cons, not_or] at hnot
    by_cases hbig : n ≤ s.size (s.ptr a)
    · refine Or.inl ⟨a, mem_cons_self, hbig, ?_⟩
      intro fuel hfuel
      obtain ⟨m, rfl⟩ := Nat.exists_eq_succ_of_ne_zero (Nat.ne_of_gt (Nat.zero_lt_of_lt hfuel))
      simp only [mallocLoop, if_pos hbig]
    · have hne : ¬ s.ptr a = s.freep := by
        rw [hptr]
        exact Ne.symm hnot.1
      have hnext : ∀ fuel, mallocLoop (fuel + 1) n a sbrks s = mallocLoop fuel n b sbrks s := by
        intro fuel
        simp only [mallocLoop, if_neg hbig, if_neg hne]
        rw [hptr]
      obtain ⟨y, hy, hy', hloop⟩ | ⟨hsmall, hloop⟩ := ih hrest hnot.2
      · refine Or.inl ⟨y, mem_cons_of_mem _ hy, hy', ?_⟩
        intro fuel hfuel
        obtain ⟨m, rfl⟩ := Nat.exists_eq_succ_of_ne_zero (Nat.ne_of_gt (Nat.zero_lt_of_lt hfuel))
        rw [length_cons] at hfuel
        rw [hnext]
        exact hloop m (by omega)
      · refine Or.inr ⟨forall_mem_cons.mpr ⟨by omega, hsmall⟩, ?_⟩
        intro fuel
        rw [hnext, length_cons, ← Nat.add_assoc]
        exact hloop fuel

/-- The circle as seen from `freep`. -/
theorem Inv.circle (h : Inv s fl) :
    ∃ l, Path s.ptr s.freep l s.freep ∧ (s.freep :: l).Perm (base :: addrs fl) ∧
      s.freep ∉ l ∧ l.length = fl.length := by
  obtain ⟨l, hpath, hperm⟩ := h.path.rotate h.freep
  have hnodup := hperm.nodup_iff.mpr h.toFreeList.nodup
  have hlen := hperm.length_eq
  rw [length_cons, length_cons, addrs, length_map] at hlen
  exact ⟨l, hpath, hperm, (nodup_cons.mp hnodup).1, by omega⟩

/-- With a large block in the list, the search ends with a block. -/
theorem Inv.search_found (h : Inv s fl) (hn : 0 < n) (hbig : ∃ x ∈ fl, n ≤ x.len)
    (sbrks : List (Option Nat)) :
    ∃ s' fl' q, Inv s' fl' ∧ s'.live = ⟨q, n⟩ :: s.live ∧ Kept s s' s.live ∧ s'.got = s.got ∧
      ∀ fuel, fl.length < fuel →
        mallocLoop fuel n s.freep sbrks s = some (headerSize * (q + 1), s') := by
  obtain ⟨l, hpath, hperm, hnot, hlen⟩ := h.circle
  obtain ⟨y, hy, hsize, hloop⟩ | ⟨hsmall, -⟩ := mallocLoop_path (n := n) hpath hnot sbrks
  · obtain ⟨g₁, g₂, rfl, rfl⟩ := exists_split (hperm.mem_iff.mp hy)
    rw [h.toFreeList.ptr_lastAddr] at hsize
    cases g₂ with
    | nil =>
      rw [firstAddr_nil, h.size_base] at hsize
      omega
    | cons c g₂ =>
      have hc := h.size c (mem_append_right _ mem_cons_self)
      rw [firstAddr_cons, hc] at hsize
      obtain ⟨s', fl', q, htake, hinv, hlive, hkept, hgot⟩ := h.take hn hsize
      refine ⟨s', fl', q, hinv, hlive, hkept, hgot, ?_⟩
      intro fuel hfuel
      rw [hloop fuel (by omega), htake]
  · -- The predecessor of the large block contradicts the other case.
    obtain ⟨x, hx, hle⟩ := hbig
    have hxsize := h.size x hx
    obtain ⟨g₁, g₂, rfl⟩ := append_of_mem hx
    have hlast := hsmall (lastAddr g₁) (hperm.mem_iff.mpr (lastAddr_mem_append g₁ _))
    rw [h.toFreeList.ptr_lastAddr, firstAddr_cons] at hlast
    omega

/-- In front of every header of a list of small blocks there is a small block. -/
theorem Inv.size_ptr_lt (h : Inv s fl) (hn : 0 < n) (hsmall : ∀ x ∈ fl, x.len < n) {y : Nat}
    (hy : y ∈ base :: addrs fl) : s.size (s.ptr y) < n := by
  obtain ⟨g₁, g₂, rfl, rfl⟩ := exists_split hy
  rw [h.toFreeList.ptr_lastAddr]
  cases g₂ with
  | nil =>
    rw [firstAddr_nil, h.size_base]
    exact hn
  | cons c g₂ =>
    have hcmem : c ∈ g₁ ++ c :: g₂ := mem_append_right _ mem_cons_self
    rw [firstAddr_cons, h.size c hcmem]
    exact hsmall c hcmem

/-- Without one, the search comes back to `freep`. -/
theorem Inv.search_refill (h : Inv s fl) (hn : 0 < n) (hsmall : ∀ x ∈ fl, x.len < n)
    (sbrks : List (Option Nat)) (fuel : Nat) :
    mallocLoop (fuel + fl.length + 1) n s.freep sbrks s = refill fuel n sbrks s := by
  obtain ⟨l, hpath, hperm, hnot, hlen⟩ := h.circle
  obtain ⟨y, hy, hsize, -⟩ | ⟨-, hloop⟩ := mallocLoop_path (n := n) hpath hnot sbrks
  · have := h.size_ptr_lt hn hsmall (hperm.mem_iff.mp hy)
    omega
  · rw [← hlen]
    exact hloop fuel

/-- What a call of `malloc` for `n` units does to the heap. -/
structure Mallocs (s s' : Heap) (n r : Nat) : Prop where
  kept : Kept s s' s.live
  result : (r = 0 ∧ s'.live = s.live) ∨
    ∃ b : Extent, r = headerSize * (b.addr + 1) ∧ b.len = n ∧ s'.live = b :: s.live

/-- The loop of `malloc` ends, and `sbrk` is called once at most. -/
theorem Inv.mallocLoop (h : Inv s fl) (hn : 0 < n) (hunits : s.units < 2 ^ 32)
    (sbrks : List (Option Nat))
    (hroom : sbrks.headD none ≠ none → s.units + coreUnits n < 2 ^ 32) :
    ∃ F r s' fl', Inv s' fl' ∧ s'.units < 2 ^ 32 ∧ Mallocs s s' n r ∧
      ∀ fuel, F ≤ fuel → Umalloc.mallocLoop fuel n s.freep sbrks s = some (r, s') := by
  by_cases hbig : ∃ x ∈ fl, n ≤ x.len
  · obtain ⟨s', fl', q, hinv, hlive, hkept, hgot, hloop⟩ := h.search_found hn hbig sbrks
    refine ⟨fl.length + 1, _, s', fl', hinv, ?_, ⟨hkept, Or.inr ⟨⟨q, n⟩, rfl, rfl, hlive⟩⟩,
      fun fuel hfuel => hloop fuel hfuel⟩
    unfold Heap.units at hunits ⊢
    rw [hgot]
    exact hunits
  push Not at hbig
  have hrefill := h.search_refill hn hbig sbrks
  cases hres : sbrks.headD none with
  | none =>
    refine ⟨fl.length + 1, 0, s, fl, h, hunits, ⟨Kept.refl s _, Or.inl ⟨rfl, rfl⟩⟩, ?_⟩
    intro fuel hfuel
    obtain ⟨m, rfl⟩ : ∃ m, fuel = m + fl.length + 1 := ⟨fuel - (fl.length + 1), by omega⟩
    rw [hrefill]
    unfold refill
    rw [hres]
    rfl
  | some gap =>
    have hroom' := hroom (by rw [hres]; exact Option.some_ne_none gap)
    obtain ⟨s₁, fl₁, hinv₁, hlive₁, -, hunits₁, hkept₁, hbig₁, hmore⟩ := h.morecore gap hroom'
    obtain ⟨s', fl', q, hinv, hlive, hkept, hgot, hloop⟩ := hinv₁.search_found hn hbig₁ sbrks.tail
    refine ⟨fl.length + fl₁.length + 1 + (fl.length + 1), _, s', fl', hinv, ?_,
      ⟨?_, Or.inr ⟨⟨q, n⟩, rfl, rfl, ?_⟩⟩, ?_⟩
    · unfold Heap.units at hunits₁ hroom' ⊢
      rw [hgot]
      omega
    · rw [← hlive₁] at hkept₁
      rw [← hlive₁]
      exact hkept₁.trans hkept
    · rw [hlive, hlive₁]
    · intro fuel hfuel
      obtain ⟨m, rfl⟩ : ∃ m, fuel = m + fl.length + 1 := ⟨fuel - (fl.length + 1), by omega⟩
      rw [hrefill]
      unfold refill
      rw [hres, hmore m (by omega)]
      exact hloop m (by omega)

end Malloc

/-! ## More turns do not change the results -/

section Fuel

variable {s s' : Heap} {fuel fuel' : Nat}

/-- More fuel gives the same result. -/
theorem freeBlock_mono {bp : Nat} (h : freeBlock fuel s bp = some s') (hle : fuel ≤ fuel') :
    freeBlock fuel' s bp = some s' := by
  obtain ⟨p, hwalk, heq⟩ := Option.map_eq_some_iff.mp h
  unfold freeBlock
  rw [follow_mono hwalk hle, Option.map_some, heq]

/-- More fuel gives the same result. -/
theorem free_mono {ap : Nat} (h : free fuel s ap = some s') (hle : fuel ≤ fuel') :
    free fuel' s ap = some s' := by
  obtain ⟨t, hfree, heq⟩ := Option.map_eq_some_iff.mp h
  exact Option.map_eq_some_iff.mpr ⟨t, freeBlock_mono hfree hle, heq⟩

/-- More fuel gives the same result. -/
theorem morecore_mono {nu : Nat} {res : Option Nat} {t : Option Heap}
    (h : morecore fuel s nu res = some t) (hle : fuel ≤ fuel') :
    morecore fuel' s nu res = some t := by
  cases res with
  | none => exact h
  | some gap =>
    obtain ⟨s₁, hfree, rfl⟩ := Option.map_eq_some_iff.mp h
    exact Option.map_eq_some_iff.mpr ⟨s₁, freeBlock_mono hfree hle, rfl⟩

/-- More fuel gives the same result. -/
theorem mallocLoop_mono {n prevp : Nat} {sbrks : List (Option Nat)} {x : Nat × Heap}
    (h : mallocLoop fuel n prevp sbrks s = some x) (hle : fuel ≤ fuel') :
    mallocLoop fuel' n prevp sbrks s = some x := by
  induction fuel generalizing fuel' prevp sbrks s with
  | zero => exact absurd h (by simp [mallocLoop])
  | succ fuel ih =>
    obtain ⟨m, rfl⟩ : ∃ m, fuel' = m + 1 := ⟨fuel' - 1, by omega⟩
    have hle' : fuel ≤ m := by omega
    by_cases hbig : n ≤ s.size (s.ptr prevp)
    · simp only [mallocLoop, if_pos hbig] at h ⊢
      exact h
    by_cases hround : s.ptr prevp = s.freep
    · simp only [mallocLoop, if_neg hbig, if_pos hround] at h ⊢
      cases hmore : morecore fuel s n (sbrks.headD none) with
      | none =>
        rw [hmore] at h
        exact absurd h (by simp)
      | some t =>
        rw [hmore] at h
        rw [morecore_mono hmore hle']
        cases t with
        | none => exact h
        | some s₁ => exact ih h hle'
    · simp only [mallocLoop, if_neg hbig, if_neg hround] at h ⊢
      exact ih h hle'

/-- More fuel gives the same result. -/
theorem malloc_mono {nbytes : Nat} {sbrks : List (Option Nat)} {x : Nat × Heap}
    (h : malloc fuel s nbytes sbrks = some x) (hle : fuel ≤ fuel') :
    malloc fuel' s nbytes sbrks = some x :=
  mallocLoop_mono h hle

end Fuel

/-! ## Runs -/

/-- The calls of a program that frees blocks in use only and writes to its own memory, as
long as `sbrk` gives fewer than `2 ^ 32` units in all. -/
def Bounded (s : Heap) (a : Act) : Prop :=
  Proper s a ∧ match a with
    | .malloc nbytes sbrks _ =>
        sbrks.headD none ≠ none → s.units + coreUnits (nunits nbytes) < 2 ^ 32
    | .free _ _ => True
    | .write _ _ _ => True

/-- The rule is decidable. -/
instance (s : Heap) : (a : Act) → Decidable (Bounded s a)
  | .malloc nbytes sbrks fuel =>
    decidable_of_iff (Proper s (.malloc nbytes sbrks fuel) ∧ ((sbrks.headD none).isSome = true →
      s.units + coreUnits (nunits nbytes) < 2 ^ 32)) (by rw [Option.isSome_iff_ne_none]; rfl)
  | .free ap fuel => inferInstanceAs (Decidable (Proper s (.free ap fuel) ∧ True))
  | .write a ptr size => inferInstanceAs (Decidable (Proper s (.write a ptr size) ∧ True))

/-- Before the first call there is no list. -/
structure Unused (s : Heap) : Prop where
  freep : s.freep = 0
  live : s.live = []
  got : s.got = []
  base_lt : base < s.brk

def Wf (s : Heap) : Prop :=
  (Unused s ∨ ∃ fl, Inv s fl) ∧ s.units < 2 ^ 32

/-- The invariant holds at the start. -/
theorem wf_boot (ptr size : Nat → Nat) (gap : Nat) : Wf (boot ptr size gap) :=
  ⟨Or.inl ⟨rfl, rfl, rfl, by change base < base + 1 + gap; omega⟩, Nat.two_pow_pos 32⟩

section Run

variable {s s' : Heap} {fl : List Extent}

/-- The first call of `malloc`. -/
theorem Unused.init (h : Unused s) : Inv (Umalloc.init s) [] := by
  have hinit : Umalloc.init s = { (s.setPtr base base).setSize base 0 with freep := base } :=
    if_pos h.freep
  rw [hinit]
  refine ⟨⟨?_, update_self base 0 s.size,
    forall_mem_nil _, forall_mem_nil _, forall_mem_nil _, Pairwise.nil⟩,
    mem_cons_self, ?_, ?_, ?_, ?_, ?_, h.base_lt⟩
  · change update s.ptr base base base = base
    exact update_self _ _ _
  · change ∀ x ∈ s.live, _
    rw [h.live]
    exact forall_mem_nil _
  · change ∀ x ∈ s.live, _
    rw [h.live]
    exact forall_mem_nil _
  · change (cells ([] ++ s.live)).Perm (cells s.got)
    rw [h.live, h.got]
    exact Perm.refl _
  · change (cells s.got).Nodup
    rw [h.got]
    exact nodup_nil
  · change ∀ a ∈ cells s.got, _
    rw [h.got]
    exact forall_mem_nil _

/-- The list exists once `freep` is set. -/
theorem Inv.init (h : Inv s fl) : Umalloc.init s = s := by
  have hne : s.freep ≠ 0 := by
    obtain heq | hmem := mem_cons.mp h.freep
    · rw [heq]
      decide
    · obtain ⟨x, hx, heq⟩ := mem_addrs.mp hmem
      have := h.above x hx
      omega
  unfold Umalloc.init
  rw [if_neg hne]

theorem units_init (s : Heap) : (Umalloc.init s).units = s.units := by
  unfold Umalloc.init
  split
  · rfl
  · rfl

/-- The number of units does not wrap. -/
theorem uint_nunits {nbytes : Nat} (h : nunits nbytes * headerSize < 2 ^ 31) :
    uint (nunits nbytes) = nunits nbytes := by
  unfold headerSize at h
  exact Nat.mod_eq_of_lt (by omega)

/-- A call of `malloc` in a consistent heap ends and keeps it consistent. -/
theorem Wf.malloc (h : Wf s) {nbytes : Nat} {sbrks : List (Option Nat)}
    (hsmall : nunits nbytes * headerSize < 2 ^ 31)
    (hroom : sbrks.headD none ≠ none → s.units + coreUnits (nunits nbytes) < 2 ^ 32) :
    ∃ F r s' fl, Inv s' fl ∧ s'.units < 2 ^ 32 ∧ Mallocs s s' (nunits nbytes) r ∧
      ∀ fuel, F ≤ fuel → Umalloc.malloc fuel s nbytes sbrks = some (r, s') := by
  obtain ⟨hlist, hunits⟩ := h
  have hpos : 0 < nunits nbytes := Nat.succ_pos _
  have hinit : ∃ fl, Inv (Umalloc.init s) fl := by
    obtain hunused | ⟨fl, hinv⟩ := hlist
    · exact ⟨[], hunused.init⟩
    · exact ⟨fl, hinv.init.symm ▸ hinv⟩
  obtain ⟨fl₀, hinv₀⟩ := hinit
  rw [← units_init] at hunits hroom
  obtain ⟨F, r, s', fl, hinv, hunits', hmallocs, hloop⟩ := hinv₀.mallocLoop hpos hunits sbrks hroom
  refine ⟨F, r, s', fl, hinv, hunits', ?_, ?_⟩
  · obtain hunused | ⟨fl', hinv'⟩ := hlist
    · have hlive : (Umalloc.init s).live = s.live := by
        unfold Umalloc.init
        rw [if_pos hunused.freep]
        rfl
      have hresult := hmallocs.result
      rw [hlive] at hresult
      refine ⟨?_, hresult⟩
      rw [hunused.live]
      exact fun a ha => absurd ha not_mem_nil
    · rw [hinv'.init] at hmallocs
      exact hmallocs
  · intro fuel hfuel
    unfold Umalloc.malloc
    rw [uint_nunits hsmall]
    exact hloop fuel hfuel

/-- A call of `free` in a consistent heap. -/
theorem Wf.free (h : Wf s) {ap : Nat} (hap : Live s ap) :
    ∃ F s' fl x, Inv s' fl ∧ s'.units < 2 ^ 32 ∧ ap = headerSize * (x.addr + 1) ∧
      s.live.Perm (x :: s'.live) ∧ Kept s s' s'.live ∧
      ∀ fuel, F ≤ fuel → Umalloc.free fuel s ap = some s' := by
  obtain ⟨hunused | ⟨fl, hinv⟩, hunits⟩ := h
  · obtain ⟨x, hx, -⟩ := hap
    rw [hunused.live] at hx
    exact absurd hx not_mem_nil
  · obtain ⟨s', fl', x, hinv', -, hap', hperm, hkept, hgot, hfree⟩ := hinv.free hunits hap
    refine ⟨fl.length + 1, s', fl', x, hinv', ?_, hap', hperm, hkept, fun fuel hfuel =>
      hfree fuel hfuel⟩
    unfold Heap.units at hunits ⊢
    rw [hgot]
    exact hunits

/-- The program writes into a block behind its header. -/
theorem Wf.write (h : Wf s) {a ptr size : Nat}
    (ha : ∃ x ∈ s.live, x.addr < a ∧ a < x.addr + x.len) :
    Wf ((s.setPtr a ptr).setSize a size) := by
  obtain ⟨x, hx, hlt, hlt'⟩ := ha
  obtain ⟨hunused | ⟨fl, hinv⟩, hunits⟩ := h
  · rw [hunused.live] at hx
    exact absurd hx not_mem_nil
  have hcell : a ∈ cells s.live := mem_cells.mpr ⟨x, hx, by omega, hlt'⟩
  have hnot := hinv.not_mem_of_live hcell
  have hsize : ∀ b, b ≠ a → ((s.setPtr a ptr).setSize a size).size b = s.size b :=
    fun b hb => update_of_ne hb _ _
  have hnode : ∀ b ∈ base :: addrs fl, b ≠ a := fun b hb heq => hnot (heq ▸ hb)
  -- The headers of the other blocks lie outside this one.
  have hlive : ∀ y ∈ s.live, y.addr ≠ a := by
    intro y hy heq
    have hnodup := hinv.nodup_cells
    rw [cells_append] at hnodup
    obtain hyx | hne := eq_or_ne y x
    · rw [hyx] at heq
      omega
    · obtain ⟨l₁, l₂, hsplit⟩ := append_of_mem hx
      have hy' : y ∈ l₁ ++ l₂ := by
        rw [hsplit] at hy
        simpa [hne] using hy
      have hnodup' : (cells ([x] ++ (l₁ ++ l₂))).Nodup := by
        refine (cells_perm ?_).nodup_iff.mp (nodup_append'.mp hnodup).2.1
        rw [hsplit]
        exact perm_middle
      have := le_or_le_of_mem hnodup' (mem_singleton_self x) hy' (hinv.live_pos x hx)
        (hinv.live_pos y hy)
      have := hinv.live_pos y hy
      omega
  refine ⟨Or.inr ⟨fl, ⟨⟨?_, ?_, ?_, hinv.pos, hinv.above, hinv.apart⟩, hinv.freep, ?_,
    hinv.live_pos, hinv.perm, hinv.nodup_got, hinv.got_lt, hinv.base_lt⟩⟩, hunits⟩
  · exact hinv.path.congr fun b hb => update_of_ne (hnode b hb) _ _
  · exact (hsize base (hnode base mem_cons_self)).trans hinv.size_base
  · intro y hy
    have hmem : y.addr ∈ base :: addrs fl := mem_cons_of_mem _ (mem_addrs.mpr ⟨y, hy, rfl⟩)
    exact (hsize _ (hnode _ hmem)).trans (hinv.size y hy)
  · exact fun y hy => (hsize _ (hlive y hy)).trans (hinv.live_size y hy)

/-- The step lemma. -/
theorem wf_step {a : Act} (h : Wf s) (hrule : Bounded s a) (hstep : step s a = some s') :
    Wf s' := by
  cases a with
  | malloc nbytes sbrks fuel =>
    obtain ⟨F, r, s₁, fl, hinv, hunits, -, hmalloc⟩ := h.malloc hrule.1 hrule.2
    obtain ⟨⟨r', s₂⟩, hcall, rfl⟩ := Option.map_eq_some_iff.mp hstep
    have hsame := (malloc_mono hcall (Nat.le_max_left fuel F)).symm.trans
      (hmalloc (max fuel F) (Nat.le_max_right fuel F))
    obtain ⟨-, rfl⟩ := Prod.mk.inj (Option.some.inj hsame)
    exact ⟨Or.inr ⟨fl, hinv⟩, hunits⟩
  | free ap fuel =>
    obtain ⟨F, s₁, fl, x, hinv, hunits, -, -, -, hfree⟩ := h.free hrule.1
    have hsame := (free_mono hstep (Nat.le_max_left fuel F)).symm.trans
      (hfree (max fuel F) (Nat.le_max_right fuel F))
    cases hsame
    exact ⟨Or.inr ⟨fl, hinv⟩, hunits⟩
  | write a ptr size =>
    cases hstep
    exact h.write hrule.1

/-- The run lemma. -/
theorem wf_run {ptr size : Nat → Nat} {gap : Nat}
    (hrun : Lib.Run step Bounded (boot ptr size gap) s) : Wf s :=
  hrun.invariant (wf_boot ptr size gap) fun _ _ _ h hrule hstep => wf_step h hrule hstep

end Run

/-- The units hold the bytes and the header. -/
theorem le_nunits (nbytes : Nat) : nbytes + headerSize ≤ headerSize * nunits nbytes := by
  unfold nunits headerSize
  omega

/-- In every state that a program reaches, the free blocks are a circle of ascending addresses
with gaps between them, and with the blocks of the program they make up the memory from
`sbrk`.  Every call then ends: `malloc` returns zero or a new block behind its
header, `free` takes back its block, and no other memory of the program is touched. -/
theorem heap_consistent {ptr size : Nat → Nat} {gap : Nat} {s : Heap}
    (hrun : Lib.Run step Bounded (boot ptr size gap) s) :
    (Unused s ∨ ∃ fl, Inv s fl) ∧
    (∀ nbytes sbrks, Bounded s (.malloc nbytes sbrks 0) → ∃ F r s',
      (∀ fuel, F ≤ fuel → malloc fuel s nbytes sbrks = some (r, s')) ∧ Kept s s' s.live ∧
      ((r = 0 ∧ s'.live = s.live) ∨ ∃ b : Extent, r = headerSize * (b.addr + 1) ∧
        nbytes + headerSize ≤ headerSize * b.len ∧ s'.live = b :: s.live ∧
        ∀ x ∈ s.live, b.addr + b.len ≤ x.addr ∨ x.addr + x.len ≤ b.addr)) ∧
    ∀ ap, Live s ap → ∃ F s' x, (∀ fuel, F ≤ fuel → free fuel s ap = some s') ∧
      ap = headerSize * (x.addr + 1) ∧ s.live.Perm (x :: s'.live) ∧ Kept s s' s'.live := by
  have hwf := wf_run hrun
  refine ⟨hwf.1, ?_, ?_⟩
  · intro nbytes sbrks hrule
    obtain ⟨F, r, s', fl, hinv, -, hmallocs, hmalloc⟩ := hwf.malloc hrule.1 hrule.2
    refine ⟨F, r, s', hmalloc, hmallocs.kept, ?_⟩
    obtain hzero | ⟨b, hr, hlen, hlive⟩ := hmallocs.result
    · exact Or.inl hzero
    refine Or.inr ⟨b, hr, hlen ▸ le_nunits nbytes, hlive, ?_⟩
    -- The new block and the old ones are parts of one division of the memory.
    have hnodup := hinv.nodup_cells
    have hpos := hinv.live_pos
    rw [hlive] at hnodup hpos
    rw [cells_append] at hnodup
    have hnodup' : (cells ([b] ++ s.live)).Nodup := (nodup_append'.mp hnodup).2.1
    intro x hx
    exact le_or_le_of_mem hnodup' (mem_singleton_self b) hx (hpos b mem_cons_self)
      (hpos x (mem_cons_of_mem _ hx))
  · intro ap hap
    obtain ⟨F, s', fl, x, -, -, hap', hperm, hkept, hfree⟩ := hwf.free hap
    exact ⟨F, s', x, hfree, hap', hperm, hkept⟩

/-- Three blocks are cut from the top of the first 4096 units, the program writes to one of
them, and the block in the middle is freed. -/
def threeBlocks : List Act :=
  [.malloc 100 [some 6] 4, .malloc 1 [] 4, .malloc 40 [] 4, .write 4100 1 7, .free 65520 4]

theorem heap_consistent_three_blocks :
    ∃ s, Lib.Run step Bounded (boot id id 0) s ∧ s.live = [⟨4090, 4⟩, ⟨4096, 8⟩] ∧
      (Unused s ∨ ∃ fl, Inv s fl) ∧
      ∃ F s' x, (∀ fuel, F ≤ fuel → free fuel s (headerSize * 4097) = some s') ∧
        headerSize * 4097 = headerSize * (x.addr + 1) ∧ s.live.Perm (x :: s'.live) ∧
        Kept s s' s'.live := by
  have hexec : (Lib.exec step Bounded (boot id id 0) threeBlocks).map
      (fun s => decide (s.live = [⟨4090, 4⟩, ⟨4096, 8⟩])) = some true := by
    decide +kernel
  obtain ⟨s, hrun, hs⟩ := Lib.exec_reaches hexec
  have hlive : s.live = [⟨4090, 4⟩, ⟨4096, 8⟩] := of_decide_eq_true hs
  obtain ⟨hlist, -, hfree⟩ := heap_consistent hrun
  refine ⟨s, hrun, hlive, hlist, hfree _ ⟨⟨4096, 8⟩, ?_, rfl⟩⟩
  rw [hlive]
  decide

/-- The units of a block for `2 ^ 31 - 48` bytes. -/
def giantUnits : Nat := 2 ^ 27 - 2

/-- The program obtains 33 such blocks from `sbrk`, one after the other, and frees them. -/
def giants : List Act :=
  replicate 33 (.malloc (2 ^ 31 - 48) [some 0] 10) ++
    (range 33).map fun k => .free (headerSize * (2 + k * giantUnits + 1)) 10

/-- Without a bound on the memory, the size of a joined block wraps and units are lost: all
blocks have been freed, but the one free block is smaller than the memory. -/
theorem joined_size_wraps :
    ∃ s, Lib.Run step Proper (boot id id 0) s ∧ s.live = [] ∧ s.freep = 2 ∧ s.ptr base = 2 ∧
      s.ptr 2 = base ∧ s.size base + s.size 2 < s.units := by
  have hexec : (Lib.exec step Proper (boot id id 0) giants).map
      (fun s => decide (s.live = [] ∧ s.freep = 2 ∧ s.ptr base = 2 ∧ s.ptr 2 = base ∧
        s.size base + s.size 2 < s.units)) = some true := by
    decide +kernel
  obtain ⟨s, hrun, hs⟩ := Lib.exec_reaches hexec
  exact ⟨s, hrun, of_decide_eq_true hs⟩

end Umalloc
end Xv6
