import Mathlib.Tactic
import Xv6.Fs.Inode
import Xv6.Lib.Exact

/-!
# Block ownership

Every block below the size of the file system is metadata, free, or referenced
from exactly one place of one allocated inode.  The bookkeeping is stated over an
explicit table of inodes, so that it can also speak about an inode whose cached
copy is ahead of its block.

Main results:

- Theorem {lit}`Core.claim_direct`, {lit}`Core.claim_entry`: a free block is given to an
  inode.
- Theorem {lit}`wp_balloc`, {lit}`wp_bfree`: what the allocator does to the bitmap.
-/

namespace Xv6

open Lib Function

/-! ## Layout of the disk -/

/-- Number of metadata blocks. -/
def Superblock.nmeta (sb : Superblock) : Nat :=
  sb.bmapstart + (sb.size / bpb + 1)

/-- The areas of the disk follow one another as `mkfs` lays them out, and the
numbers fit their C types. -/
structure Superblock.Wf (sb : Superblock) : Prop where
  logstart : sb.logstart = 2
  inodestart : sb.inodestart = sb.logstart + sb.nlog
  bmapstart : sb.bmapstart = sb.inodestart + (sb.ninodes / ipb + 1)
  nmeta_le : sb.nmeta ≤ sb.size
  size_lt : sb.size < 2 ^ 31
  ninodes_le : sb.ninodes ≤ 2 ^ 16
  root : rootino < sb.ninodes

section Layout

variable {sb : Superblock} {n b c : Nat}

/-- Inodes are below the bitmap. -/
theorem Superblock.Wf.iblock_lt (h : sb.Wf) (hn : n < sb.ninodes) :
    iblock sb n < sb.bmapstart := by
  have hdiv : n / ipb ≤ sb.ninodes / ipb := Nat.div_le_div_right hn.le
  rw [h.bmapstart]
  unfold iblock
  omega

/-- The bitmap begins here. -/
theorem bmapstart_le_bblock : sb.bmapstart ≤ bblock sb b :=
  Nat.le_add_left _ _

/-- The bitmap is metadata. -/
theorem bblock_lt_nmeta (hb : b < sb.size) : bblock sb b < sb.nmeta := by
  have hdiv : b / bpb ≤ sb.size / bpb := Nat.div_le_div_right hb.le
  unfold bblock Superblock.nmeta
  omega

/-- Inodes are not on the bitmap. -/
theorem Superblock.Wf.iblock_ne_bblock (h : sb.Wf) (hn : n < sb.ninodes) :
    iblock sb n ≠ bblock sb b :=
  (Nat.lt_of_lt_of_le (h.iblock_lt hn) bmapstart_le_bblock).ne

/-- Inodes are metadata. -/
theorem Superblock.Wf.iblock_lt_nmeta (h : sb.Wf) (hn : n < sb.ninodes) :
    iblock sb n < sb.nmeta :=
  Nat.lt_of_lt_of_le (h.iblock_lt hn) (Nat.le_add_right _ _)

/-- Block 0 is metadata. -/
theorem nmeta_pos : 0 < sb.nmeta :=
  Nat.add_pos_right _ (Nat.succ_pos _)

end Layout

/-! ## The bitmap -/

/-- The blocks whose bit is set. -/
def used (sb : Superblock) (disk : Nat → Block) : Set Nat :=
  {b | b < sb.size ∧ bitAt (disk (bblock sb b)) (b % bpb) = true}

/-- The bitmap can be read. -/
instance (sb : Superblock) (disk : Nat → Block) (b : Nat) : Decidable (b ∈ used sb disk) :=
  inferInstanceAs (Decidable (_ ∧ _))

/-- Boot block, superblock, log, inodes and bitmap. -/
def metadata (sb : Superblock) : Set Nat :=
  {b | b < sb.nmeta}

/-- The blocks that are free. -/
def freeBlocks (sb : Superblock) (disk : Nat → Block) : Finset Nat :=
  (Finset.range sb.size).filter (· ∉ used sb disk)

/-- The blocks after `balloc` has returned `b`. -/
def allocDisk (sb : Superblock) (disk : Nat → Block) (b : Nat) : Nat → Block :=
  update
    (update disk (bblock sb b) (setBit (disk (bblock sb b)) (b % bpb))) b fun _ => 0

/-- The blocks after `bfree` of `b`. -/
def freeDisk (sb : Superblock) (disk : Nat → Block) (b : Nat) : Nat → Block :=
  update disk (bblock sb b) (clearBit (disk (bblock sb b)) (b % bpb))

section Bitmap

variable {sb : Superblock} {disk disk' : Nat → Block} {b c : Nat}

/-- Each block has its own bit. -/
theorem bblock_mod_inj (hblock : bblock sb c = bblock sb b) (hbit : c % bpb = b % bpb) : c = b := by
  have hdiv : c / bpb = b / bpb := Nat.add_right_cancel hblock
  rw [← Nat.div_add_mod c bpb, hdiv, hbit, Nat.div_add_mod]

/-- The bitmap only depends on its own blocks. -/
theorem used_congr (hbits : ∀ b < sb.size, disk' (bblock sb b) = disk (bblock sb b)) :
    used sb disk' = used sb disk := by
  ext b
  constructor
  · rintro ⟨hb, hbit⟩
    exact ⟨hb, by rwa [hbits b hb] at hbit⟩
  · rintro ⟨hb, hbit⟩
    exact ⟨hb, by rwa [hbits b hb]⟩

/-- A new block is zeroed. -/
theorem allocDisk_self : allocDisk sb disk b b = fun _ => 0 :=
  update_self _ _ _

/-- Taking a block leaves the others alone. -/
theorem allocDisk_of_ne (hne : c ≠ b) (hbit : c ≠ bblock sb b) :
    allocDisk sb disk b c = disk c := by
  unfold allocDisk
  rw [update_of_ne hne, update_of_ne hbit]

/-- Freeing a block leaves the others alone. -/
theorem freeDisk_of_ne (hbit : c ≠ bblock sb b) : freeDisk sb disk b c = disk c :=
  update_of_ne hbit _ _

/-- A block that is not part of the bitmap is taken. -/
theorem used_allocDisk_of_ne (hb : b < sb.size) (hbitmap : ∀ c < sb.size, bblock sb c ≠ b) :
    used sb (allocDisk sb disk b) = insert b (used sb disk) := by
  ext c
  have hbits : c < sb.size → bitAt (allocDisk sb disk b (bblock sb c)) (c % bpb) =
      (decide (c = b) || bitAt (disk (bblock sb c)) (c % bpb)) := by
    intro hc
    unfold allocDisk
    rw [update_of_ne (hbitmap c hc)]
    by_cases hblock : bblock sb c = bblock sb b
    · rw [hblock, update_self, bitAt_setBit]
      have hiff : c % bpb = b % bpb ↔ c = b :=
        ⟨bblock_mod_inj hblock, fun h => by rw [h]⟩
      simp only [hiff]
    · have hcb : c ≠ b := by
        rintro rfl
        exact hblock rfl
      rw [update_of_ne hblock]
      simp [hcb]
  constructor
  · rintro ⟨hc, hbit⟩
    rw [hbits hc, Bool.or_eq_true, decide_eq_true_eq] at hbit
    exact hbit.imp id fun h => ⟨hc, h⟩
  · rintro (rfl | ⟨hc, hbit⟩)
    · exact ⟨hb, by rw [hbits hb]; simp⟩
    · exact ⟨hc, by rw [hbits hc, hbit]; simp⟩

/-- Taking a block. -/
theorem used_allocDisk (hb : b < sb.size) (hdata : sb.nmeta ≤ b) :
    used sb (allocDisk sb disk b) = insert b (used sb disk) :=
  used_allocDisk_of_ne hb fun _ hc => (Nat.lt_of_lt_of_le (bblock_lt_nmeta hc) hdata).ne

/-- Freeing a block. -/
theorem used_freeDisk : used sb (freeDisk sb disk b) = used sb disk \ {b} := by
  ext c
  have hbits : bitAt (freeDisk sb disk b (bblock sb c)) (c % bpb) =
      (decide (c ≠ b) && bitAt (disk (bblock sb c)) (c % bpb)) := by
    unfold freeDisk
    by_cases hblock : bblock sb c = bblock sb b
    · rw [hblock, update_self, bitAt_clearBit]
      have hiff : c % bpb = b % bpb ↔ c = b :=
        ⟨bblock_mod_inj hblock, fun h => by rw [h]⟩
      simp only [ne_eq, hiff]
    · have hcb : c ≠ b := by
        rintro rfl
        exact hblock rfl
      rw [update_of_ne hblock]
      simp [hcb]
  constructor
  · rintro ⟨hc, hbit⟩
    rw [hbits, Bool.and_eq_true, decide_eq_true_eq] at hbit
    exact ⟨⟨hc, hbit.2⟩, hbit.1⟩
  · rintro ⟨⟨hc, hbit⟩, hne⟩
    refine ⟨hc, ?_⟩
    rw [hbits, hbit]
    simpa using hne

/-- The free blocks are those not in use. -/
theorem mem_freeBlocks : b ∈ freeBlocks sb disk ↔ b < sb.size ∧ b ∉ used sb disk := by
  simp [freeBlocks]

/-- Taking a free block. -/
theorem freeBlocks_allocDisk (hfree : b ∈ freeBlocks sb disk) (hdata : sb.nmeta ≤ b) :
    freeBlocks sb (allocDisk sb disk b) = (freeBlocks sb disk).erase b := by
  have hb := (mem_freeBlocks.mp hfree).1
  ext c
  rw [Finset.mem_erase, mem_freeBlocks, mem_freeBlocks, used_allocDisk hb hdata,
    Set.mem_insert_iff]
  tauto

/-- The free blocks depend on the bitmap only. -/
theorem freeBlocks_congr (hbits : ∀ b < sb.size, disk' (bblock sb b) = disk (bblock sb b)) :
    freeBlocks sb disk' = freeBlocks sb disk := by
  ext c
  rw [mem_freeBlocks, mem_freeBlocks, used_congr hbits]

end Bitmap

/-! ## References -/

/-- The slots of an inode: the direct addresses, the indirect block, and the
entries of the indirect block. -/
def nslots : Nat := ndirect + 1 + nindirect

/-- The address in a slot, or zero. -/
def slotAddr (disk : Nat → Block) (d : Dinode) (s : Nat) : Nat :=
  if s ≤ ndirect then d.addrs s
  else if s < nslots ∧ d.addrs ndirect ≠ 0 then
    getEntry (disk (d.addrs ndirect)) (s - (ndirect + 1))
  else 0

/-- The slot of the `bn`-th block of the contents. -/
def slotOf (bn : Nat) : Nat :=
  if bn < ndirect then bn else bn + 1

/-- The address of the `bn`-th block of the contents, or zero. -/
def addrOf (disk : Nat → Block) (d : Dinode) (bn : Nat) : Nat :=
  slotAddr disk d (slotOf bn)

/-- Inode `n` is in use. -/
def Allocated (sb : Superblock) (D : Nat → Dinode) (n : Nat) : Prop :=
  0 < n ∧ n < sb.ninodes ∧ (D n).type ≠ 0

/-- Whether an inode is in use is decidable. -/
instance (sb : Superblock) (D : Nat → Dinode) (n : Nat) : Decidable (Allocated sb D n) :=
  inferInstanceAs (Decidable (_ ∧ _))

/-- The block that a slot of an allocated inode refers to. -/
def owner (sb : Superblock) (disk : Nat → Block) (D : Nat → Dinode) (i : Nat × Nat) : Option Nat :=
  if Allocated sb D i.1 ∧ slotAddr disk (D i.1) i.2 ≠ 0 then some (slotAddr disk (D i.1) i.2)
  else none

/-- Exact block ownership, and contents without holes. -/
structure Core (sb : Superblock) (disk : Nat → Block) (D : Nat → Dinode) : Prop where
  wf : sb.Wf
  fits : ∀ n, (D n).Fits
  exact : Exact (used sb disk) (metadata sb) (owner sb disk D)
  size_le : ∀ n, Allocated sb D n → (D n).size ≤ maxfile * bsize
  mapped : ∀ n bn, Allocated sb D n → bn * bsize < (D n).size → addrOf disk (D n) bn ≠ 0

section Slots

variable {sb : Superblock} {disk disk' : Nat → Block} {D D' : Nat → Dinode} {d : Dinode}
variable {n s b bn : Nat}

/-- The block of a slot. -/
theorem owner_eq_some : owner sb disk D (n, s) = some b ↔
    Allocated sb D n ∧ slotAddr disk (D n) s = b ∧ b ≠ 0 := by
  unfold owner
  constructor
  · intro h
    obtain ⟨hcond, ⟨⟩⟩ := Option.ite_none_right_eq_some.mp h
    exact ⟨hcond.1, rfl, hcond.2⟩
  · rintro ⟨halloc, rfl, hne⟩
    rw [if_pos ⟨halloc, hne⟩]

/-- A slot without a block. -/
theorem owner_eq_none (h : ¬(Allocated sb D n ∧ slotAddr disk (D n) s ≠ 0)) :
    owner sb disk D (n, s) = none :=
  if_neg h

/-- Each block of a file has its own slot. -/
theorem slotOf_inj {bn' : Nat} (h : slotOf bn = slotOf bn') : bn = bn' := by
  unfold slotOf at h
  split at h <;> split at h <;> omega

/-- The slot of the indirect block is not one of them. -/
theorem slotOf_ne_ndirect : slotOf bn ≠ ndirect := by
  unfold slotOf
  split <;> omega

/-- The slots behind that of the indirect block. -/
theorem slotOf_indirect (hbn : ndirect ≤ bn) : slotOf bn = ndirect + 1 + (bn - ndirect) := by
  unfold slotOf
  rw [if_neg (by omega)]
  omega

/-- The direct slots. -/
theorem slotAddr_direct (hs : s ≤ ndirect) : slotAddr disk d s = d.addrs s :=
  if_pos hs

/-- The direct blocks. -/
theorem addrOf_direct (hbn : bn < ndirect) : addrOf disk d bn = d.addrs bn := by
  unfold addrOf slotOf
  rw [if_pos hbn, slotAddr_direct hbn.le]

/-- The slots in the indirect block. -/
theorem slotAddr_entry {j : Nat} (hj : j < nindirect) (hind : d.addrs ndirect ≠ 0) :
    slotAddr disk d (ndirect + 1 + j) = getEntry (disk (d.addrs ndirect)) j := by
  unfold slotAddr nslots
  rw [if_neg (by omega), if_pos ⟨by omega, hind⟩, Nat.add_sub_cancel_left]

/-- There are none without an indirect block. -/
theorem slotAddr_of_no_indirect (hs : ndirect < s) (hind : d.addrs ndirect = 0) :
    slotAddr disk d s = 0 := by
  unfold slotAddr
  rw [if_neg (by omega), if_neg (by simp [hind])]

/-- There are no more slots. -/
theorem slotAddr_of_ge (hs : nslots ≤ s) : slotAddr disk d s = 0 := by
  unfold slotAddr
  rw [if_neg (by unfold nslots at hs; omega), if_neg (by omega)]

/-- The addresses depend on the disk only through the indirect block. -/
theorem slotAddr_congr (hind : d.addrs ndirect ≠ 0 →
    disk' (d.addrs ndirect) = disk (d.addrs ndirect)) : slotAddr disk' d s = slotAddr disk d s := by
  by_cases hs : s ≤ ndirect
  · rw [slotAddr_direct hs, slotAddr_direct hs]
  · by_cases hzero : d.addrs ndirect = 0
    · rw [slotAddr_of_no_indirect (by omega) hzero, slotAddr_of_no_indirect (by omega) hzero]
    · unfold slotAddr
      rw [hind hzero]

/-- The owners depend on the inodes in use and their slots. -/
theorem owner_congr (halloc : ∀ n, Allocated sb D' n ↔ Allocated sb D n)
    (haddr : ∀ n s, Allocated sb D n → slotAddr disk' (D' n) s = slotAddr disk (D n) s) :
    owner sb disk' D' = owner sb disk D := by
  funext i
  unfold owner
  by_cases hn : Allocated sb D i.1
  · rw [haddr i.1 i.2 hn]
    simp only [halloc i.1]
  · rw [if_neg (by simp [halloc, hn]), if_neg (by simp [hn])]

end Slots

/-! ## Keeping the books -/

/-- Replace one address of an inode. -/
def Dinode.withAddr (d : Dinode) (i addr : Nat) : Dinode :=
  { d with addrs := update d.addrs i addr }

/-- Setting an address. -/
theorem Dinode.Fits.withAddr {d : Dinode} {i addr : Nat} (hd : d.Fits) (hi : i ≤ ndirect)
    (haddr : addr < 2 ^ 32) : (d.withAddr i addr).Fits where
  type := hd.type
  major := hd.major
  minor := hd.minor
  nlink := hd.nlink
  size := hd.size
  addr := fun j => by
    by_cases hji : j = i
    · simpa [Dinode.withAddr, hji] using haddr
    · simpa [Dinode.withAddr, hji] using hd.addr j
  outside := fun j hj => by
    have hji : j ≠ i := by omega
    simpa [Dinode.withAddr, hji] using hd.outside j hj

namespace Core

variable {sb : Superblock} {disk disk' : Nat → Block} {D D' : Nat → Dinode}
variable {n s b bn i j : Nat}

/-- What an inode refers to is a data block in use. -/
theorem owner_data {k : Nat × Nat} (h : Core sb disk D) (hown : owner sb disk D k = some b) :
    sb.nmeta ≤ b ∧ b < sb.size :=
  ⟨Nat.le_of_not_lt (h.exact.apart k b hown), (h.exact.mem_used hown).1⟩

/-- A free block is a data block. -/
theorem free_data (h : Core sb disk D) (hfree : b ∈ freeBlocks sb disk) : sb.nmeta ≤ b := by
  by_contra hlt
  exact (mem_freeBlocks.mp hfree).2 ((h.exact.used_iff b).mpr (Or.inl (Nat.lt_of_not_le hlt)))

/-- The owner of a block in a slot. -/
theorem owner_of_slot (halloc : Allocated sb D n) (hne : slotAddr disk (D n) s ≠ 0) :
    owner sb disk D (n, s) = some (slotAddr disk (D n) s) :=
  owner_eq_some.mpr ⟨halloc, rfl, hne⟩

/-- The indirect block of an allocated inode is referred to by its own slot. -/
theorem owner_indirect (disk : Nat → Block) (halloc : Allocated sb D n)
    (hne : (D n).addrs ndirect ≠ 0) :
    owner sb disk D (n, ndirect) = some ((D n).addrs ndirect) := by
  have hslot : slotAddr disk (D n) ndirect = (D n).addrs ndirect := slotAddr_direct le_rfl
  rw [owner_of_slot halloc (by rwa [hslot]), hslot]

/-- A change of blocks outside the bitmap and the indirect blocks. -/
theorem frame (h : Core sb disk D)
    (hbits : ∀ b < sb.size, disk' (bblock sb b) = disk (bblock sb b))
    (hind : ∀ n, Allocated sb D n → (D n).addrs ndirect ≠ 0 →
      disk' ((D n).addrs ndirect) = disk ((D n).addrs ndirect)) : Core sb disk' D := by
  have haddr : ∀ n s, Allocated sb D n → slotAddr disk' (D n) s = slotAddr disk (D n) s :=
    fun n s halloc => slotAddr_congr (hind n halloc)
  refine ⟨h.wf, h.fits, ?_, h.size_le, ?_⟩
  · rw [used_congr hbits, owner_congr (fun _ => Iff.rfl) haddr]
    exact h.exact
  · intro n bn halloc hlt
    unfold addrOf
    rw [haddr n _ halloc]
    exact h.mapped n bn halloc hlt

/-- A free block is given to an empty slot. -/
theorem claim (h : Core sb disk D) (hfree : b ∈ freeBlocks sb disk) (hn : Allocated sb D n)
    (hslot : slotAddr disk (D n) s = 0) (hused : used sb disk' = insert b (used sb disk))
    (haddr : ∀ m t, Allocated sb D m →
      slotAddr disk' (D' m) t = if (m, t) = (n, s) then b else slotAddr disk (D m) t)
    (htype : ∀ m, (D' m).type = (D m).type) (hsize : ∀ m, (D' m).size = (D m).size)
    (hfits : ∀ m, (D' m).Fits) : Core sb disk' D' := by
  have hunused := (mem_freeBlocks.mp hfree).2
  have hne : b ≠ 0 := (Nat.lt_of_lt_of_le nmeta_pos (h.free_data hfree)).ne'
  have halloc : ∀ m, Allocated sb D' m ↔ Allocated sb D m := by
    intro m
    simp only [Allocated, htype]
  have howner : owner sb disk' D' = update (owner sb disk D) (n, s) (some b) := by
    funext ⟨m, t⟩
    by_cases hm : Allocated sb D m
    · unfold owner
      rw [haddr m t hm]
      by_cases heq : (m, t) = (n, s)
      · rw [if_pos heq, if_pos ⟨(halloc m).mpr hm, hne⟩, heq, update_self]
      · rw [if_neg heq, update_of_ne heq]
        simp only [halloc m]
    · have hmn : (m, t) ≠ (n, s) := by
        rintro heq
        cases heq
        exact hm hn
      rw [update_of_ne hmn, owner_eq_none (by simp [halloc, hm]),
        owner_eq_none (by simp [hm])]
  refine ⟨h.wf, hfits, ?_, ?_, ?_⟩
  · rw [hused, howner]
    exact h.exact.claim hunused (owner_eq_none (by simp [hslot]))
  · intro m hm
    rw [hsize m]
    exact h.size_le m ((halloc m).mp hm)
  · intro m bn hm hlt
    rw [hsize m] at hlt
    have hm' := (halloc m).mp hm
    unfold addrOf
    rw [haddr m _ hm']
    split
    · exact hne
    · exact h.mapped m bn hm' hlt

/-- The indirect block of an allocated inode is not touched by `balloc`. -/
theorem allocDisk_indirect (h : Core sb disk D) (hfree : b ∈ freeBlocks sb disk)
    (halloc : Allocated sb D n) (hne : (D n).addrs ndirect ≠ 0) :
    allocDisk sb disk b ((D n).addrs ndirect) = disk ((D n).addrs ndirect) := by
  have hown := owner_indirect disk halloc hne
  obtain ⟨hb, hunused⟩ := mem_freeBlocks.mp hfree
  apply allocDisk_of_ne
  · intro heq
    exact hunused (heq ▸ h.exact.mem_used hown)
  · exact (Nat.lt_of_lt_of_le (bblock_lt_nmeta hb) (h.owner_data hown).1).ne'

/-- Taking a free block leaves the slots alone. -/
theorem slotAddr_allocDisk (h : Core sb disk D) (hfree : b ∈ freeBlocks sb disk)
    (halloc : Allocated sb D n) : slotAddr (allocDisk sb disk b) (D n) s = slotAddr disk (D n) s :=
  slotAddr_congr (h.allocDisk_indirect hfree halloc)

/-- The addresses after a block has been given to a direct slot or to the slot of
the indirect block. -/
theorem slotAddr_claim_direct (h : Core sb disk D) (hfree : b ∈ freeBlocks sb disk)
    (halloc : Allocated sb D n) (hi : i ≤ ndirect) (hzero : (D n).addrs i = 0) :
    slotAddr (allocDisk sb disk b) ((D n).withAddr i b) s =
      if s = i then b else slotAddr disk (D n) s := by
  have hself : ((D n).withAddr i b).addrs i = b := update_self _ _ _
  have hother : ∀ j, j ≠ i → ((D n).withAddr i b).addrs j = (D n).addrs j :=
    fun j hj => update_of_ne hj _ _
  by_cases hs : s ≤ ndirect
  · rw [slotAddr_direct hs]
    split
    next heq =>
      rw [heq, hself]
    next hne =>
      rw [hother s hne, slotAddr_direct hs]
  · rw [if_neg (by omega)]
    by_cases hind : i = ndirect
    · -- The new indirect block is zero.
      rw [hind] at hzero hself
      rw [slotAddr_of_no_indirect (by omega) hzero]
      unfold slotAddr
      rw [if_neg hs]
      split
      · rw [hind, hself, allocDisk_self, getEntry_zero]
      · rfl
    · rw [← h.slotAddr_allocDisk hfree halloc]
      unfold slotAddr
      rw [if_neg hs, if_neg hs, hother ndirect (Ne.symm hind)]

/-- A free block is given to a direct slot or to the slot of the indirect block. -/
theorem claim_direct (h : Core sb disk D) (hfree : b ∈ freeBlocks sb disk)
    (hn : Allocated sb D n) (hi : i ≤ ndirect) (hzero : (D n).addrs i = 0) :
    Core sb (allocDisk sb disk b) (update D n ((D n).withAddr i b)) := by
  obtain ⟨hb, -⟩ := mem_freeBlocks.mp hfree
  have hfield : ∀ m, (update D n ((D n).withAddr i b) m).type = (D m).type ∧
      (update D n ((D n).withAddr i b) m).size = (D m).size := by
    intro m
    by_cases hm : m = n
    · rw [hm, update_self]
      exact ⟨rfl, rfl⟩
    · rw [update_of_ne hm]
      exact ⟨rfl, rfl⟩
  refine h.claim (s := i) hfree hn (by rwa [slotAddr_direct hi])
    (used_allocDisk hb (h.free_data hfree)) ?_ (fun m => (hfield m).1) (fun m => (hfield m).2) ?_
  · intro m t hm
    by_cases hmn : m = n
    · rw [hmn, update_self, h.slotAddr_claim_direct hfree hn hi hzero]
      simp
    · rw [update_of_ne hmn, h.slotAddr_allocDisk hfree hm, if_neg (by simp [hmn])]
  · intro m
    by_cases hm : m = n
    · rw [hm, update_self]
      exact (h.fits n).withAddr hi (by have := h.wf.size_lt; omega)
    · rw [update_of_ne hm]
      exact h.fits m

/-- The blocks after the free block `b` has been put into entry `j` of the indirect
block `ind`. -/
def entryDisk (sb : Superblock) (disk : Nat → Block) (ind j b : Nat) : Nat → Block :=
  update (allocDisk sb disk b) ind (putEntry (disk ind) j b)

/-- The addresses after a block has been put into an indirect block. -/
theorem slotAddr_claim_entry (h : Core sb disk D) (hfree : b ∈ freeBlocks sb disk)
    (hn : Allocated sb D n) (hj : j < nindirect) (hind : (D n).addrs ndirect ≠ 0) {m t : Nat}
    (hm : Allocated sb D m) :
    slotAddr (entryDisk sb disk ((D n).addrs ndirect) j b) (D m) t =
      if (m, t) = (n, ndirect + 1 + j) then b else slotAddr disk (D m) t := by
  have hlt : b < 2 ^ 32 := by
    have hb := (mem_freeBlocks.mp hfree).1
    have hsize := h.wf.size_lt
    omega
  by_cases hmn : m = n
  · rw [hmn]
    by_cases ht : t ≤ ndirect
    · rw [slotAddr_direct ht, slotAddr_direct ht, if_neg (by simp; omega)]
    · unfold slotAddr
      rw [if_neg ht, if_neg ht]
      by_cases hslot : t < nslots ∧ (D n).addrs ndirect ≠ 0
      · unfold entryDisk
        rw [if_pos hslot, if_pos hslot, update_self, getEntry_putEntry hlt]
        have hiff : t - (ndirect + 1) = j ↔ (n, t) = (n, ndirect + 1 + j) := by
          rw [Prod.mk.injEq]
          omega
        simp only [hiff]
      · rw [if_neg hslot, if_neg hslot, if_neg]
        rintro heq
        cases heq
        exact hslot ⟨Nat.add_lt_add_left hj _, hind⟩
  · rw [if_neg (by simp [hmn]), ← h.slotAddr_allocDisk hfree hm]
    apply slotAddr_congr
    intro hne
    apply update_of_ne
    intro heq
    have hown := owner_indirect disk hm hne
    rw [heq] at hown
    have hsame := h.exact.inj _ _ _ hown (owner_indirect disk hn hind)
    exact hmn (congrArg Prod.fst hsame)

/-- Taking a block for the indirect block. -/
theorem used_entryDisk (h : Core sb disk D) (hfree : b ∈ freeBlocks sb disk)
    (hn : Allocated sb D n) (hind : (D n).addrs ndirect ≠ 0) :
    used sb (entryDisk sb disk ((D n).addrs ndirect) j b) = insert b (used sb disk) := by
  obtain ⟨hb, -⟩ := mem_freeBlocks.mp hfree
  rw [← used_allocDisk hb (h.free_data hfree)]
  apply used_congr
  intro c hc
  apply update_of_ne
  have hdata := (h.owner_data (owner_indirect disk hn hind)).1
  exact (Nat.lt_of_lt_of_le (bblock_lt_nmeta hc) hdata).ne

/-- A free block is put into an indirect block. -/
theorem claim_entry (h : Core sb disk D) (hfree : b ∈ freeBlocks sb disk)
    (hn : Allocated sb D n) (hj : j < nindirect) (hind : (D n).addrs ndirect ≠ 0)
    (hzero : getEntry (disk ((D n).addrs ndirect)) j = 0) :
    Core sb (entryDisk sb disk ((D n).addrs ndirect) j b) D :=
  h.claim (s := ndirect + 1 + j) hfree hn (by rwa [slotAddr_entry hj hind])
    (h.used_entryDisk hfree hn hind) (fun _ _ hm => h.slotAddr_claim_entry hfree hn hj hind hm)
    (fun _ => rfl) (fun _ => rfl) h.fits

end Core

/-! ## The allocator -/

namespace Fs

variable {fs : Fs} {b : Nat} {E : String → Fs → Prop}

/-- `balloc` takes the first free block. -/
theorem wp_balloc (hop : 0 < fs.outstanding) :
    Wp balloc fs
      (fun b fs' => b ∈ freeBlocks fs.sb fs.disk ∧ (∀ c < b, c ∈ used fs.sb fs.disk) ∧
        fs' = { fs with
          disk := allocDisk fs.sb fs.disk b, logged := fs.logged ++ [bblock fs.sb b, b] })
      (fun e _ => e = "balloc: out of blocks" ∧ freeBlocks fs.sb fs.disk = ∅) := by
  simp only [balloc, wp_bind, wp_get]
  split
  next hnone =>
    refine wp_throw.mpr ⟨rfl, ?_⟩
    rw [Finset.eq_empty_iff_forall_notMem]
    intro b hb
    obtain ⟨hlt, hunused⟩ := mem_freeBlocks.mp hb
    have hbit := List.find?_eq_none.mp hnone b (List.mem_range.mpr hlt)
    exact hunused ⟨hlt, by simpa using hbit⟩
  next b hfind =>
    obtain ⟨hlt, hbit, hfirst⟩ := List.find?_range_eq_some.mp hfind
    simp only [wp_bind, wp_setData]
    rw [wp_logWrite (by exact hop), wp_bzero (by exact hop), wp_pure]
    refine ⟨mem_freeBlocks.mpr ⟨List.mem_range.mp hbit, ?_⟩, ?_, ?_⟩
    · rintro ⟨-, hset⟩
      simp [hset] at hlt
    · intro c hc
      have hset := hfirst c hc
      exact ⟨hc.trans (List.mem_range.mp hbit), by simpa using hset⟩
    · simp [allocDisk]

/-- `bfree` of a block in use. -/
theorem wp_bfree {Q : Unit → Fs → Prop} (hop : 0 < fs.outstanding)
    (hused : b ∈ used fs.sb fs.disk) : Wp (bfree b) fs Q E ↔
      Q () { fs with
        disk := freeDisk fs.sb fs.disk b, logged := fs.logged ++ [bblock fs.sb b] } := by
  simp only [bfree, wp_bind, wp_get, wp_bread, if_pos hused.2, wp_setData]
  exact wp_logWrite hop

end Fs

end Xv6
