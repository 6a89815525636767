import Mathlib.Tactic
import Xv6.Fs.Blocks

/-!
# Growing an inode

What `bmap` allocates for an inode, and what stays as it was: the other inodes,
the metadata, and the blocks that the inode had before.

Main results:

- Theorem {lit}`Grow.direct`, {lit}`Grow.entry`: one block is added to an inode.
- Theorem {lit}`Extends.trans`, {lit}`Extends.short`: how allocations compose.
- Theorem {lit}`wp_bmap`: the missing blocks of one position are allocated.
-/

namespace Xv6

open Lib Function

/-- The byte at position `i` of the contents. -/
def content (disk : Nat → Block) (d : Dinode) (i : Nat) : UInt8 :=
  disk (addrOf disk d (i / bsize)) (i % bsize)

/-- The slots that the blocks `lo ≤ bn < hi` of the contents use. -/
def slotsOf (lo hi : Nat) : Finset Nat :=
  (Finset.Ico lo hi).image slotOf ∪ if ndirect < hi ∧ lo < hi then {ndirect} else ∅

/-- The slots among `S` that hold no block. -/
def missing (disk : Nat → Block) (d : Dinode) (S : Finset Nat) : Finset Nat :=
  S.filter (slotAddr disk d · = 0)

/-- The blocks of the free bitmap. -/
def bitmap (sb : Superblock) : Set Nat :=
  {c | ∃ b < sb.size, c = bblock sb b}

/-! ## What one inode may change -/

/-- From `disk` to `disk'` only inode `n` and free blocks have changed: neither the
blocks before the bitmap nor the blocks of another inode. -/
structure Apart (sb : Superblock) (D : Nat → Dinode) (n : Nat) (disk disk' : Nat → Block) :
    Prop where
  low : ∀ c < sb.bmapstart, disk' c = disk c
  other : ∀ m s c, m ≠ n → owner sb disk D (m, s) = some c → disk' c = disk c

namespace Apart

variable {sb : Superblock} {D : Nat → Dinode} {n m s : Nat} {disk disk' disk'' : Nat → Block}

/-- Nothing has changed. -/
theorem refl : Apart sb D n disk disk :=
  ⟨fun _ _ => rfl, fun _ _ _ _ _ => rfl⟩

/-- The addresses of the other inodes are unchanged. -/
theorem slotAddr (h : Apart sb D n disk disk') (hm : m ≠ n) (halloc : Allocated sb D m) :
    Xv6.slotAddr disk' (D m) s = Xv6.slotAddr disk (D m) s :=
  slotAddr_congr fun hne => h.other m ndirect _ hm (Core.owner_indirect disk halloc hne)

/-- The blocks of other inodes. -/
theorem owner (h : Apart sb D n disk disk') (hm : m ≠ n) :
    Xv6.owner sb disk' D (m, s) = Xv6.owner sb disk D (m, s) := by
  unfold Xv6.owner
  by_cases halloc : Allocated sb D m
  · rw [h.slotAddr hm halloc]
  · rw [if_neg (by simp [halloc]), if_neg (by simp [halloc])]

/-- Two changes in a row. -/
theorem trans (h : Apart sb D n disk disk') (h' : Apart sb D n disk' disk'') :
    Apart sb D n disk disk'' := by
  refine ⟨fun c hc => (h'.low c hc).trans (h.low c hc), fun m s c hm hown => ?_⟩
  rw [h'.other m s c hm (by rwa [h.owner hm]), h.other m s c hm hown]

/-- The contents of the other inodes are unchanged. -/
theorem content (h : Apart sb D n disk disk') (hm : m ≠ n) (halloc : Allocated sb D m) {i : Nat}
    (hmap : addrOf disk (D m) (i / bsize) ≠ 0) :
    Xv6.content disk' (D m) i = Xv6.content disk (D m) i := by
  have haddr : addrOf disk' (D m) (i / bsize) = addrOf disk (D m) (i / bsize) :=
    h.slotAddr hm halloc
  have hblock : disk' (addrOf disk (D m) (i / bsize)) = disk (addrOf disk (D m) (i / bsize)) :=
    h.other m _ _ hm (Core.owner_of_slot halloc hmap)
  unfold Xv6.content
  rw [haddr, hblock]

end Apart

/-- Other inodes. -/
theorem allocated_update_of_ne {sb : Superblock} {D : Nat → Dinode} {n m : Nat} {d : Dinode}
    (hm : m ≠ n) : Allocated sb (update D n d) m ↔ Allocated sb D m := by
  simp only [Allocated, update_of_ne hm]

/-- The blocks of other inodes. -/
theorem owner_update_of_ne {sb : Superblock} {D : Nat → Dinode} {disk : Nat → Block}
    {n m s : Nat} {d : Dinode} (hm : m ≠ n) :
    owner sb disk (update D n d) (m, s) = owner sb disk D (m, s) := by
  simp only [owner, allocated_update_of_ne hm, update_of_ne hm]

/-- The inode fits in its place on the disk. -/
theorem Core.fits_self {sb : Superblock} {disk : Nat → Block} {D : Nat → Dinode} {n : Nat}
    {d : Dinode} (h : Core sb disk (update D n d)) : d.Fits := by
  have hself := h.fits n
  rwa [update_self] at hself

/-- Replace inode `n`, in a way that the other inodes do not notice. -/
theorem Core.replace {sb : Superblock} {disk disk' : Nat → Block} {D : Nat → Dinode} {n : Nat}
    {d d' : Dinode} (h : Core sb disk (update D n d)) (hapart : Apart sb D n disk disk')
    (hfits : d'.Fits)
    (hexact : Exact (used sb disk') (metadata sb) (owner sb disk' (update D n d')))
    (hsize : d'.type ≠ 0 → d'.size ≤ maxfile * bsize)
    (hmapped : d'.type ≠ 0 → ∀ bn, bn * bsize < d'.size → addrOf disk' d' bn ≠ 0) :
    Core sb disk' (update D n d') := by
  have hself : Allocated sb (update D n d') n → d'.type ≠ 0 := by
    intro halloc
    have htype := halloc.2.2
    rwa [update_self] at htype
  have hother : ∀ {m}, m ≠ n → Allocated sb (update D n d') m →
      Allocated sb D m ∧ Allocated sb (update D n d) m := fun hm halloc =>
    have halloc := (allocated_update_of_ne hm).mp halloc
    ⟨halloc, (allocated_update_of_ne hm).mpr halloc⟩
  refine ⟨h.wf, fun m => ?_, hexact, fun m hm => ?_, fun m bn hm => ?_⟩
  · by_cases hmn : m = n
    · rwa [hmn, update_self]
    · simpa only [update_of_ne hmn] using h.fits m
  · obtain rfl | hmn := eq_or_ne m n
    · rw [update_self]
      exact hsize (hself hm)
    · simpa only [update_of_ne hmn] using h.size_le m (hother hmn hm).2
  · obtain rfl | hmn := eq_or_ne m n
    · rw [update_self]
      exact hmapped (hself hm) bn
    · have hmap := h.mapped m bn (hother hmn hm).2
      unfold addrOf at hmap ⊢
      rwa [update_of_ne hmn, hapart.slotAddr hmn (hother hmn hm).1, ← update_of_ne hmn d D]

/-- From the copy `d` of inode `n` on `disk` to `d'` on `disk'` the slots `new` have
got blocks, and neither the other slots nor the other inodes have changed. -/
structure Grow (sb : Superblock) (D : Nat → Dinode) (n : Nat) (new : Finset Nat) (d : Dinode)
    (disk : Nat → Block) (d' : Dinode) (disk' : Nat → Block) : Prop where
  core : Core sb disk' (update D n d')
  apart : Apart sb D n disk disk'
  fields : d' = { d with addrs := d'.addrs }
  same : ∀ s, s ∉ new → slotAddr disk' d' s = slotAddr disk d s
  fresh : ∀ s ∈ new, slotAddr disk d s = 0 ∧ slotAddr disk' d' s ≠ 0
  free : (freeBlocks sb disk').card + new.card = (freeBlocks sb disk).card

namespace Grow

variable {sb : Superblock} {D : Nat → Dinode} {n s i j b : Nat} {new new' : Finset Nat}
variable {d d' d'' : Dinode} {disk disk' disk'' : Nat → Block}

/-- No blocks. -/
theorem refl (h : Core sb disk (update D n d)) : Grow sb D n ∅ d disk d disk where
  core := h
  apart := .refl
  fields := rfl
  same := fun _ _ => rfl
  fresh := by simp
  free := rfl

/-- A slot with a block keeps it. -/
theorem keep (h : Grow sb D n new d disk d' disk') (hne : slotAddr disk d s ≠ 0) :
    slotAddr disk' d' s = slotAddr disk d s :=
  h.same s fun hs => hne (h.fresh s hs).1

/-- A slot with a block has one afterwards. -/
theorem mapped (h : Grow sb D n new d disk d' disk') (hne : slotAddr disk d s ≠ 0) :
    slotAddr disk' d' s ≠ 0 := by
  rwa [h.keep hne]

/-- A block is taken once. -/
theorem disjoint (h : Grow sb D n new d disk d' disk') (h' : Grow sb D n new' d' disk' d'' disk'') :
    Disjoint new new' := by
  rw [Finset.disjoint_left]
  intro s hs hs'
  exact (h.fresh s hs).2 (h'.fresh s hs').1

/-- One group of blocks after another. -/
theorem trans (h : Grow sb D n new d disk d' disk') (h' : Grow sb D n new' d' disk' d'' disk'') :
    Grow sb D n (new ∪ new') d disk d'' disk'' where
  core := h'.core
  apart := h.apart.trans h'.apart
  fields := by rw [h'.fields, h.fields]
  same := by
    intro s hs
    rw [Finset.mem_union, not_or] at hs
    rw [h'.same s hs.2, h.same s hs.1]
  fresh := by
    intro s hs
    rcases Finset.mem_union.mp hs with hs | hs
    · exact ⟨(h.fresh s hs).1, h'.mapped (h.fresh s hs).2⟩
    · refine ⟨?_, (h'.fresh s hs).2⟩
      by_contra hne
      exact h.mapped hne (h'.fresh s hs).1
  free := by
    rw [Finset.card_union_of_disjoint (h.disjoint h')]
    have hfree := h.free
    have hfree' := h'.free
    omega

/-- The slots that still miss a block. -/
theorem missing_eq (h : Grow sb D n new d disk d' disk') {S : Finset Nat} :
    missing disk' d' S = missing disk d S \ new := by
  ext s
  simp only [missing, Finset.mem_filter, Finset.mem_sdiff]
  by_cases hs : s ∈ new
  · simp [hs, (h.fresh s hs).2]
  · simp [hs, h.same s hs]

end Grow

/-! ## Allocating for an inode -/

section Claim

variable {sb : Superblock} {D : Nat → Dinode} {n i j b : Nat} {d : Dinode} {disk : Nat → Block}

/-- A block in use is not touched by `balloc`. -/
theorem Core.allocDisk_owned (h : Core sb disk D) (hfree : b ∈ freeBlocks sb disk)
    {k : Nat × Nat} {c : Nat} (hown : owner sb disk D k = some c) :
    allocDisk sb disk b c = disk c := by
  obtain ⟨hb, hunused⟩ := mem_freeBlocks.mp hfree
  apply allocDisk_of_ne
  · rintro rfl
    exact hunused (h.exact.mem_used hown)
  · exact (Nat.lt_of_lt_of_le (bblock_lt_nmeta hb) (h.owner_data hown).1).ne'

/-- Taking a free block leaves other inodes alone. -/
theorem Core.apart_alloc (h : Core sb disk (update D n d))
    (hfree : b ∈ freeBlocks sb disk) : Apart sb D n disk (allocDisk sb disk b) := by
  have hdata : sb.bmapstart ≤ b := (Nat.le_add_right _ _).trans (h.free_data hfree)
  constructor
  · intro c hc
    exact allocDisk_of_ne (hc.trans_le hdata).ne (hc.trans_le bmapstart_le_bblock).ne
  · intro m s c hm hown
    exact h.allocDisk_owned hfree (by rwa [owner_update_of_ne hm])

/-- The slots of the inode that is being changed. -/
theorem owner_self {s : Nat} (hn : Allocated sb (update D n d) n)
    (hne : slotAddr disk d s ≠ 0) :
    owner sb disk (update D n d) (n, s) = some (slotAddr disk d s) := by
  rw [owner_eq_some, update_self]
  exact ⟨hn, rfl, hne⟩

/-- The owner of the indirect block. -/
theorem owner_self_indirect (disk : Nat → Block) (hn : Allocated sb (update D n d) n)
    (hne : d.addrs ndirect ≠ 0) :
    owner sb disk (update D n d) (n, ndirect) = some (d.addrs ndirect) := by
  have hslot : slotAddr disk d ndirect = d.addrs ndirect := slotAddr_direct le_rfl
  rw [owner_self hn (by rwa [hslot]), hslot]

/-- The type decides. -/
theorem allocated_self {d' : Dinode} (htype : d'.type = d.type) :
    Allocated sb (update D n d') n ↔ Allocated sb (update D n d) n := by
  simp only [Allocated, update_self, htype]

/-- A block for a direct slot or for the indirect block. -/
theorem Grow.direct (h : Core sb disk (update D n d))
    (hn : Allocated sb (update D n d) n) (hfree : b ∈ freeBlocks sb disk)
    (hi : i ≤ ndirect) (hzero : d.addrs i = 0) :
    Grow sb D n {i} d disk (d.withAddr i b) (allocDisk sb disk b) := by
  have hdata := h.free_data hfree
  have hself : update D n d n = d := update_self _ _ _
  have haddr : ∀ s, slotAddr (allocDisk sb disk b) (d.withAddr i b) s =
      if s = i then b else slotAddr disk d s := by
    intro s
    have hslot := h.slotAddr_claim_direct (s := s) hfree hn hi (by rwa [hself])
    rwa [hself] at hslot
  refine ⟨?_, h.apart_alloc hfree, rfl, ?_, ?_, ?_⟩
  · have hcore := h.claim_direct hfree hn hi (by rwa [hself])
    rwa [hself, update_idem] at hcore
  · intro s hs
    rw [haddr s, if_neg (by simpa using hs)]
  · intro s hs
    rw [Finset.mem_singleton.mp hs, slotAddr_direct hi, haddr i, if_pos rfl]
    exact ⟨hzero, (nmeta_pos.trans_le hdata).ne'⟩
  · rw [freeBlocks_allocDisk hfree hdata, Finset.card_singleton,
      Finset.card_erase_add_one hfree]

/-- A block for an entry of the indirect block. -/
theorem Grow.entry (h : Core sb disk (update D n d))
    (hn : Allocated sb (update D n d) n) (hfree : b ∈ freeBlocks sb disk)
    (hj : j < nindirect) (hind : d.addrs ndirect ≠ 0)
    (hzero : getEntry (disk (d.addrs ndirect)) j = 0) :
    Grow sb D n {ndirect + 1 + j} d disk d (Core.entryDisk sb disk (d.addrs ndirect) j b) := by
  have hdata := h.free_data hfree
  have hself : update D n d n = d := update_self _ _ _
  have hind' : (update D n d n).addrs ndirect ≠ 0 := by rwa [hself]
  have hown := owner_self_indirect disk hn hind
  have haddr : ∀ s, slotAddr (Core.entryDisk sb disk (d.addrs ndirect) j b) d s =
      if s = ndirect + 1 + j then b else slotAddr disk d s := by
    intro s
    have hslot := h.slotAddr_claim_entry (t := s) hfree hn hj hind' hn
    rw [hself] at hslot
    simpa using hslot
  have hinddata := (h.owner_data hown).1
  refine ⟨?_, ?_, rfl, ?_, ?_, ?_⟩
  · have hcore := h.claim_entry hfree hn hj hind' (by rwa [hself])
    rwa [hself] at hcore
  · refine (h.apart_alloc hfree).trans ⟨fun c hc => ?_, fun m s c hm hother => ?_⟩
    · apply update_of_ne
      exact (hc.trans_le ((Nat.le_add_right _ _).trans hinddata)).ne
    · apply update_of_ne
      rintro rfl
      rw [(h.apart_alloc hfree).owner hm, ← owner_update_of_ne (d := d) hm] at hother
      exact hm (congrArg Prod.fst (h.exact.inj _ _ _ hother hown))
  · intro s hs
    rw [haddr s, if_neg (by simpa using hs)]
  · intro s hs
    rw [Finset.mem_singleton.mp hs, slotAddr_entry hj hind, haddr, if_pos rfl]
    exact ⟨hzero, (nmeta_pos.trans_le hdata).ne'⟩
  · have hused := h.used_entryDisk (j := j) hfree hn hind'
    rw [hself] at hused
    have hset : freeBlocks sb (Core.entryDisk sb disk (d.addrs ndirect) j b) =
        (freeBlocks sb disk).erase b := by
      ext c
      rw [Finset.mem_erase, mem_freeBlocks, mem_freeBlocks, hused, Set.mem_insert_iff]
      tauto
    rw [hset, Finset.card_singleton, Finset.card_erase_add_one hfree]

end Claim

/-! ## `bmap` -/

namespace Fs

/-- The state while inode `n` is being changed: its cached copy, the blocks and the
list of logged blocks are new, the rest is as in `fs`. -/
@[simps -fullyApplied sb disk logged]
def during (fs : Fs) (n : Nat) (d : Dinode) (disk : Nat → Block) (logged : List Nat) : Fs :=
  { fs with
    disk := disk
    icache := update fs.icache n { fs.icache n with din := d }
    logged := logged }

section During

variable {fs : Fs} {n : Nat} {d d' : Dinode} {disk disk' : Nat → Block} {L L' : List Nat}

/-- The cached copy. -/
@[simp]
theorem during_icache : (during fs n d disk L).icache n = { fs.icache n with din := d } :=
  update_self _ _ _

/-- At the beginning. -/
theorem during_self (fs : Fs) (n : Nat) : during fs n (fs.icache n).din fs.disk fs.logged = fs := by
  simp [during]

end During

/-- The blocks logged from `L` to `L'` are in the bitmap or in the slots `S`. -/
def LogsWithin (sb : Superblock) (S : Finset Nat) (d : Dinode) (disk : Nat → Block)
    (L L' : List Nat) : Prop :=
  ∀ c ∈ L', c ∈ L ∨ c ∈ bitmap sb ∨ ∃ s ∈ S, c = slotAddr disk d s

/-- From `d`, `disk`, `L` to `d'`, `disk'`, `L'` the slots `S` of inode `n` have got
blocks where they had none, and only the bitmap and these slots have been logged. -/
structure Extends (sb : Superblock) (D : Nat → Dinode) (n : Nat) (S : Finset Nat) (d : Dinode)
    (disk : Nat → Block) (L : List Nat) (d' : Dinode) (disk' : Nat → Block) (L' : List Nat) :
    Prop where
  grow : Grow sb D n (missing disk d S) d disk d' disk'
  logs : LogsWithin sb S d' disk' L L'

namespace Extends

variable {sb : Superblock} {D : Nat → Dinode} {n s : Nat} {S S' : Finset Nat}
variable {d d' d'' : Dinode} {disk disk' disk'' : Nat → Block} {L L' L'' : List Nat}

/-- All slots have blocks. -/
theorem refl (h : Core sb disk (update D n d)) (hS : missing disk d S = ∅) :
    Extends sb D n S d disk L d disk L where
  grow := by
    rw [hS]
    exact .refl h
  logs := fun _ hc => Or.inl hc

/-- Afterwards every slot has a block. -/
theorem mapped (h : Extends sb D n S d disk L d' disk' L') (hs : s ∈ S) :
    slotAddr disk' d' s ≠ 0 := by
  by_cases hzero : slotAddr disk d s = 0
  · exact (h.grow.fresh s (Finset.mem_filter.mpr ⟨hs, hzero⟩)).2
  · exact h.grow.mapped hzero

/-- What the two parts lack. -/
theorem missing_union (h : Extends sb D n S d disk L d' disk' L') :
    missing disk d S ∪ missing disk' d' S' = missing disk d (S ∪ S') := by
  rw [h.grow.missing_eq, Finset.union_sdiff_self_eq_union]
  exact (Finset.filter_union _ _ _).symm

/-- One set of slots after another. -/
theorem trans (h : Extends sb D n S d disk L d' disk' L')
    (h' : Extends sb D n S' d' disk' L' d'' disk'' L'') :
    Extends sb D n (S ∪ S') d disk L d'' disk'' L'' where
  grow := by
    rw [← h.missing_union]
    exact h.grow.trans h'.grow
  logs := by
    intro c hc
    rcases h'.logs c hc with hc | hc | ⟨s, hs, rfl⟩
    · rcases h.logs c hc with hc | hc | ⟨s, hs, rfl⟩
      · exact Or.inl hc
      · exact Or.inr (Or.inl hc)
      · refine Or.inr (Or.inr ⟨s, Finset.mem_union_left _ hs, ?_⟩)
        exact (h'.grow.keep (h.mapped hs)).symm
    · exact Or.inr (Or.inl hc)
    · exact Or.inr (Or.inr ⟨s, Finset.mem_union_right _ hs, rfl⟩)

/-- If the second part lacks free blocks, so did the whole. -/
theorem short (h : Extends sb D n S d disk L d' disk' L')
    (hshort : (freeBlocks sb disk').card < (missing disk' d' S').card) :
    (freeBlocks sb disk).card < (missing disk d (S ∪ S')).card := by
  have hdisj : Disjoint (missing disk d S) (missing disk' d' S') := by
    rw [h.grow.missing_eq]
    exact Finset.disjoint_sdiff
  rw [← h.missing_union, Finset.card_union_of_disjoint hdisj, ← h.grow.free]
  omega

end Extends

/-- More slots lack more blocks. -/
theorem missing_mono {disk : Nat → Block} {d : Dinode} {S S' : Finset Nat} (hsub : S ⊆ S') :
    (missing disk d S).card ≤ (missing disk d S').card :=
  Finset.card_le_card (Finset.filter_subset_filter _ hsub)

/-- The slots `S` have got blocks, and the old blocks of the contents are unchanged. -/
structure Allocates (sb : Superblock) (D : Nat → Dinode) (n : Nat) (S : Finset Nat) (d : Dinode)
    (disk : Nat → Block) (L : List Nat) (d' : Dinode) (disk' : Nat → Block) (L' : List Nat) :
    Prop extends Extends sb D n S d disk L d' disk' L' where
  data : ∀ s, s ≠ ndirect → slotAddr disk d s ≠ 0 →
    disk' (slotAddr disk d s) = disk (slotAddr disk d s)

namespace Allocates

variable {sb : Superblock} {D : Nat → Dinode} {n s : Nat} {S S' : Finset Nat}
variable {d d' d'' : Dinode} {disk disk' disk'' : Nat → Block} {L L' L'' : List Nat}

/-- All slots have blocks. -/
theorem refl (h : Core sb disk (update D n d)) (hS : missing disk d S = ∅) :
    Allocates sb D n S d disk L d disk L where
  toExtends := .refl h hS
  data := fun _ _ _ => rfl

/-- One set of slots after another. -/
theorem trans (h : Allocates sb D n S d disk L d' disk' L')
    (h' : Allocates sb D n S' d' disk' L' d'' disk'' L'') :
    Allocates sb D n (S ∪ S') d disk L d'' disk'' L'' where
  toExtends := h.toExtends.trans h'.toExtends
  data := by
    intro s hs hne
    have hkeep := h.grow.keep hne
    have hdata := h'.data s hs (by rwa [hkeep])
    rw [hkeep] at hdata
    rw [hdata, h.data s hs hne]

end Allocates

section Bmap

variable {fs : Fs} {D : Nat → Dinode} {n i bn : Nat} {d : Dinode} {disk : Nat → Block}
variable {L : List Nat}

/-- `addrs[i]`, for a direct block or the indirect block. -/
theorem wp_directBlock (hop : 0 < fs.outstanding)
    (h : Core fs.sb disk (update D n d))
    (hn : Allocated fs.sb (update D n d) n) (hi : i ≤ ndirect) :
    Wp (directBlock n i) (during fs n d disk L)
      (fun a fs' => ∃ d' disk' L', fs' = during fs n d' disk' L' ∧ a = d'.addrs i ∧ a ≠ 0 ∧
        Allocates fs.sb D n {i} d disk L d' disk' L')
      (fun e _ => e = "balloc: out of blocks" ∧
        (freeBlocks fs.sb disk).card < (missing disk d {i}).card) := by
  have hslot : slotAddr disk d i = d.addrs i := slotAddr_direct hi
  simp only [directBlock, wp_bind, wp_getInode, during_icache]
  split
  next hzero =>
    have hmissing : missing disk d {i} = {i} := by
      rw [missing, Finset.filter_singleton, if_pos (hslot.trans hzero)]
    have hballoc := wp_balloc (show 0 < (during fs n d disk L).outstanding from hop)
    rw [wp_bind]
    refine hballoc.mono ?_ ?_
    · rintro b _ ⟨hfree, -, rfl⟩
      have hgrow := Grow.direct h hn hfree hi hzero
      simp only [wp_bind, wp_setAddr, wp_pure]
      refine ⟨d.withAddr i b, allocDisk fs.sb disk b, L ++ [bblock fs.sb b, b], ?_, ?_, ?_, ?_⟩
      · simp [during, Dinode.withAddr]
      · simp [Dinode.withAddr]
      · exact (nmeta_pos.trans_le (h.free_data hfree)).ne'
      · refine ⟨⟨by rwa [hmissing], ?_⟩, ?_⟩
        · intro c hc
          rcases List.mem_append.mp hc with hc | hc
          · exact Or.inl hc
          · right
            rcases List.mem_pair.mp hc with rfl | rfl
            · exact Or.inl ⟨b, (mem_freeBlocks.mp hfree).1, rfl⟩
            · refine Or.inr ⟨i, Finset.mem_singleton_self i, ?_⟩
              simp [slotAddr_direct hi, Dinode.withAddr]
        · intro s _ hne
          exact h.allocDisk_owned hfree (owner_self hn hne)
    · rintro e _ ⟨rfl, hempty⟩
      refine ⟨rfl, ?_⟩
      rw [during_sb, during_disk] at hempty
      simp [hmissing, hempty]
  next hne =>
    have hmissing : missing disk d {i} = ∅ := by
      rw [missing, Finset.filter_singleton, if_neg (by rwa [hslot])]
    exact wp_pure.mpr ⟨d, disk, L, rfl, rfl, hne, .refl h hmissing⟩

/-- An entry of the indirect block. -/
theorem wp_entryBlock {j : Nat} (hop : 0 < fs.outstanding)
    (h : Core fs.sb disk (update D n d))
    (hn : Allocated fs.sb (update D n d) n) (hj : j < nindirect)
    (hind : d.addrs ndirect ≠ 0) :
    Wp (do
        let blk ← bread (d.addrs ndirect)
        if getEntry blk j = 0 then
          let addr ← balloc
          let blk ← bread (d.addrs ndirect)
          setData (d.addrs ndirect) (putEntry blk j addr)
          logWrite (d.addrs ndirect)
          return addr
        else return getEntry blk j) (during fs n d disk L)
      (fun a fs' => ∃ disk' L', fs' = during fs n d disk' L' ∧
        a = slotAddr disk' d (ndirect + 1 + j) ∧
        Allocates fs.sb D n {ndirect, ndirect + 1 + j} d disk L d disk' L')
      (fun e _ => e = "balloc: out of blocks" ∧
        (freeBlocks fs.sb disk).card < (missing disk d {ndirect, ndirect + 1 + j}).card) := by
  have hslot : slotAddr disk d (ndirect + 1 + j) = getEntry (disk (d.addrs ndirect)) j :=
    slotAddr_entry hj hind
  have hown := owner_self_indirect disk hn hind
  have hmissing : missing disk d {ndirect, ndirect + 1 + j} =
      if getEntry (disk (d.addrs ndirect)) j = 0 then {ndirect + 1 + j} else ∅ := by
    have hne : slotAddr disk d ndirect ≠ 0 := by rwa [slotAddr_direct le_rfl]
    rw [missing, Finset.filter_insert, if_neg hne, Finset.filter_singleton, hslot]
  rw [wp_bind, wp_bread, during_disk]
  split
  next hzero =>
    rw [if_pos hzero] at hmissing
    have hballoc := wp_balloc (show 0 < (during fs n d disk L).outstanding from hop)
    rw [wp_bind]
    refine hballoc.mono ?_ ?_
    · rintro b _ ⟨hfree, -, rfl⟩
      rw [during_sb, during_disk] at hfree
      have hgrow := Grow.entry h hn hfree hj hind hzero
      have hsame : allocDisk fs.sb disk b (d.addrs ndirect) = disk (d.addrs ndirect) :=
        h.allocDisk_owned hfree hown
      simp only [wp_bind, wp_bread, wp_setData, during_sb, during_disk, during_logged, hsame]
      rw [wp_logWrite (by exact hop), wp_pure]
      have hnew :
          slotAddr (Core.entryDisk fs.sb disk (d.addrs ndirect) j b) d (ndirect + 1 + j) = b := by
        rw [slotAddr_entry hj hind, Core.entryDisk, update_self,
          getEntry_putEntry (by have := h.wf.size_lt; have := (mem_freeBlocks.mp hfree).1; omega),
          if_pos rfl]
      refine ⟨Core.entryDisk fs.sb disk (d.addrs ndirect) j b,
        L ++ [bblock fs.sb b, b] ++ [d.addrs ndirect], rfl, hnew.symm, ⟨by rwa [hmissing], ?_⟩, ?_⟩
      · intro c hc
        simp only [List.mem_append, List.mem_cons, List.not_mem_nil, or_false] at hc
        rcases hc with (hc | rfl | rfl) | rfl
        · exact Or.inl hc
        · exact Or.inr (Or.inl ⟨b, (mem_freeBlocks.mp hfree).1, rfl⟩)
        · exact Or.inr (Or.inr ⟨ndirect + 1 + j, by simp, hnew.symm⟩)
        · exact Or.inr (Or.inr ⟨ndirect, by simp, (slotAddr_direct le_rfl).symm⟩)
      · intro s hs hne
        have hown' := owner_self hn hne
        have hother : slotAddr disk d s ≠ d.addrs ndirect := by
          intro heq
          rw [heq] at hown'
          exact hs (congrArg Prod.snd (h.exact.inj _ _ _ hown' hown))
        unfold Core.entryDisk
        rw [update_of_ne hother, h.allocDisk_owned hfree hown']
    · rintro e _ ⟨rfl, hempty⟩
      refine ⟨rfl, ?_⟩
      rw [during_sb, during_disk] at hempty
      simp [hmissing, hempty]
  next hne =>
    rw [if_neg hne] at hmissing
    exact wp_pure.mpr ⟨disk, L, rfl, hslot.symm, .refl h hmissing⟩

/-- The slot of a direct block. -/
theorem slotsOf_direct (hbn : bn < ndirect) : slotsOf bn (bn + 1) = {bn} := by
  unfold slotsOf
  rw [if_neg (by omega), Finset.union_empty]
  simp [slotOf, hbn]

/-- The slots of a block behind the indirect block. -/
theorem slotsOf_indirect (hbn : ndirect ≤ bn) :
    slotsOf bn (bn + 1) = {ndirect} ∪ {ndirect, ndirect + 1 + (bn - ndirect)} := by
  unfold slotsOf
  rw [if_pos ⟨by omega, by omega⟩, Nat.Ico_succ_singleton, Finset.image_singleton,
    slotOf_indirect hbn]
  ext s
  simp only [Finset.mem_union, Finset.mem_singleton, Finset.mem_insert]
  tauto

/-- `bmap` allocates what is missing for one block of the contents. -/
theorem wp_bmap (hop : 0 < fs.outstanding) (h : Core fs.sb disk (update D n d))
    (hn : Allocated fs.sb (update D n d) n) (hbn : bn < maxfile) :
    Wp (bmap n bn) (during fs n d disk L)
      (fun a fs' => ∃ d' disk' L', fs' = during fs n d' disk' L' ∧ a = addrOf disk' d' bn ∧
        Allocates fs.sb D n (slotsOf bn (bn + 1)) d disk L d' disk' L')
      (fun e _ => e = "balloc: out of blocks" ∧
        (freeBlocks fs.sb disk).card < (missing disk d (slotsOf bn (bn + 1))).card) := by
  unfold bmap
  split
  next hdirect =>
    rw [slotsOf_direct hdirect]
    refine (wp_directBlock hop h hn hdirect.le).imp ?_
    rintro a _ ⟨d', disk', L', rfl, rfl, -, halloc⟩
    exact ⟨d', disk', L', rfl, (addrOf_direct hdirect).symm, halloc⟩
  next hdirect =>
    have hj : bn - ndirect < nindirect := by
      unfold maxfile at hbn
      omega
    rw [slotsOf_indirect (by omega), if_pos hj, wp_bind]
    refine (wp_directBlock hop h hn le_rfl).mono ?_ ?_
    · rintro a _ ⟨d', disk', L', rfl, rfl, hne, halloc⟩
      have hn' : Allocated fs.sb (update D n d') n :=
        (allocated_self (by rw [halloc.grow.fields])).mpr hn
      refine (wp_entryBlock hop halloc.grow.core hn' hj hne).mono ?_ ?_
      · rintro a _ ⟨disk'', L'', rfl, rfl, halloc'⟩
        refine ⟨d', disk'', L'', rfl, ?_, halloc.trans halloc'⟩
        rw [addrOf, slotOf_indirect (by omega)]
      · rintro e _ ⟨rfl, hshort⟩
        exact ⟨rfl, halloc.short hshort⟩
    · rintro e _ ⟨rfl, hshort⟩
      exact ⟨rfl, hshort.trans_le (missing_mono Finset.subset_union_left)⟩

end Bmap

end Fs

end Xv6
