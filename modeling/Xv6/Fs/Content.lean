import Mathlib.Tactic
import Xv6.Fs.Bmap

/-!
# Contents of inodes

What the loops of `readi` and `writei` do to the contents of an inode.

Main results:

- Theorem {lit}`wp_readi`: reading blocks that are there returns the contents and
  changes nothing.
- Theorem {lit}`wp_writeLoop`: writing replaces a range of the contents.
-/

namespace Xv6

open Lib Function

namespace Fs

/-! ## `readi` -/

section Read

variable {fs : Fs} {n bn : Nat} {E : String → Fs → Prop}

/-- `bmap` of a block that is there. -/
theorem wp_bmap_mapped {Q : Nat → Fs → Prop}
    (hne : addrOf fs.disk (fs.icache n).din bn ≠ 0) :
    Wp (bmap n bn) fs Q E ↔ Q (addrOf fs.disk (fs.icache n).din bn) fs := by
  unfold bmap directBlock
  by_cases hdirect : bn < ndirect
  · rw [addrOf_direct hdirect] at hne ⊢
    simp only [if_pos hdirect, wp_bind, wp_getInode, if_neg hne, wp_pure]
  · have hslot : slotOf bn = ndirect + 1 + (bn - ndirect) := slotOf_indirect (by omega)
    have hj : bn - ndirect < nindirect := by
      by_contra hge
      exact hne (slotAddr_of_ge (by unfold nslots; omega))
    have hind : (fs.icache n).din.addrs ndirect ≠ 0 := by
      intro hzero
      exact hne (slotAddr_of_no_indirect (by omega) hzero)
    rw [addrOf, hslot, slotAddr_entry hj hind] at hne ⊢
    simp only [if_neg hdirect, if_pos hj, wp_bind, wp_getInode, if_neg hind, wp_pure, wp_bread,
      if_neg hne]

/-- The bytes of the contents from `off` on. -/
def bytesAt (fs : Fs) (n off k : Nat) : List UInt8 :=
  (List.range k).map fun i => content fs.disk (fs.icache n).din (off + i)

/-- Reading in two parts. -/
theorem bytesAt_add {off k m : Nat} :
    bytesAt fs n off (k + m) = bytesAt fs n off k ++ bytesAt fs n (off + k) m := by
  simp [bytesAt, List.range_add, Nat.add_assoc]

/-- The bytes of one round. -/
theorem bytesAt_chunk {off left : Nat} : bytesAt fs n off (chunk off left) =
    (List.range (chunk off left)).map fun i =>
      fs.disk (addrOf fs.disk (fs.icache n).din (off / bsize)) (off % bsize + i) := by
  apply List.map_congr_left
  intro i hi
  have hlt : i < bsize - off % bsize := (List.mem_range.mp hi).trans_le (min_le_right _ _)
  have hdiv : (off + i) / bsize = off / bsize := by
    unfold bsize at hlt ⊢
    omega
  have hmod : (off + i) % bsize = off % bsize + i := by
    unfold bsize at hlt ⊢
    omega
  simp only [content, hdiv, hmod]

/-- A chunk is not empty. -/
theorem chunk_pos (off : Nat) {left : Nat} (hleft : left ≠ 0) : 0 < chunk off left := by
  unfold chunk bsize
  omega

/-- A chunk is no longer than what is left. -/
theorem chunk_le {off left : Nat} : chunk off left ≤ left :=
  min_le_left _ _

/-- The loop of `readi` over blocks that are there. -/
theorem wp_readLoop {ok : Nat → Bool} {fuel off left : Nat} {acc : List UInt8}
    (hfuel : left ≤ fuel) (hmap : ∀ bn, off / bsize ≤ bn → bn * bsize < off + left →
      addrOf fs.disk (fs.icache n).din bn ≠ 0) :
    Wp (readLoop n ok fuel off left acc) fs
      (fun r fs' => fs' = fs ∧ ∃ k ≤ left, r = acc ++ bytesAt fs n off k ∧
        ((∀ i, ok i = true) → k = left)) E := by
  induction fuel generalizing off left acc with
  | zero =>
    rw [readLoop, wp_pure]
    exact ⟨rfl, 0, Nat.zero_le _, by simp [bytesAt], fun _ => by omega⟩
  | succ fuel ih =>
    rw [readLoop]
    split
    next hleft =>
      exact wp_pure.mpr ⟨rfl, 0, Nat.zero_le _, by simp [bytesAt], fun _ => hleft.symm⟩
    next hleft =>
      have hpos := chunk_pos off hleft
      have hle : chunk off left ≤ left := chunk_le
      have hstart : off / bsize * bsize ≤ off := Nat.div_mul_le_self off bsize
      rw [wp_bind, wp_bmap_mapped (hmap _ le_rfl (by omega)), wp_bind, wp_bread]
      dsimp only
      split
      · -- The chunk is copied, and the loop goes on behind it.
        refine (ih (by omega) ?_).imp ?_
        · intro bn hbn hlt
          refine hmap bn (le_trans (Nat.div_le_div_right (by omega)) hbn) (by omega)
        · rintro r _ ⟨rfl, k, hk, rfl, hall⟩
          refine ⟨rfl, chunk off left + k, by omega, ?_, fun hok => ?_⟩
          · rw [bytesAt_add, bytesAt_chunk, List.append_assoc]
          · have heq := hall hok
            omega
      next hfault =>
        refine wp_pure.mpr ⟨rfl, 0, Nat.zero_le _, by simp [bytesAt], fun hok => ?_⟩
        exact absurd (List.all_eq_true.mpr fun i _ => hok _) hfault

/-- `readi` over blocks that are there returns the contents and changes nothing. -/
theorem wp_readi {ok : Nat → Bool} {off len : Nat} (hlocked : (fs.icache n).locked = true)
    (hsize : (fs.icache n).din.size < 2 ^ 32) (hlen : len < 2 ^ 32)
    (hmap : ∀ bn, off / bsize ≤ bn → bn * bsize < off + len →
      bn * bsize < (fs.icache n).din.size → addrOf fs.disk (fs.icache n).din bn ≠ 0) :
    Wp (readi n ok off len) fs
      (fun r fs' => fs' = fs ∧ ∃ k ≤ min len ((fs.icache n).din.size - off),
        r = bytesAt fs n off k ∧ ((∀ i, ok i = true) → off + len < 2 ^ 32 →
          k = min len ((fs.icache n).din.size - off))) E := by
  simp only [readi, wp_bind, wp_lockedInode hlocked]
  split
  next hbad =>
    refine wp_pure.mpr ⟨rfl, 0, Nat.zero_le _, by simp [bytesAt], fun _ hlt => ?_⟩
    rw [uint_of_lt hlt] at hbad
    omega
  next hgood =>
    rw [not_or, Nat.not_lt, Nat.not_lt] at hgood
    have hno : off + len < 2 ^ 32 := add_lt_of_uint (by omega) hlen hgood.2
    rw [uint_of_lt hno] at hgood ⊢
    have hshort : (if off + len > (fs.icache n).din.size then (fs.icache n).din.size - off
        else len) = min len ((fs.icache n).din.size - off) := by
      split <;> omega
    rw [hshort]
    refine (wp_readLoop le_rfl ?_).imp ?_
    · intro bn hbn hlt
      exact hmap bn hbn (by omega) (by omega)
    · rintro r _ ⟨rfl, k, hk, rfl, hall⟩
      exact ⟨rfl, k, hk, by simp, fun hok _ => hall hok⟩

end Read

/-! ## `writei` -/

section Mapped

variable {src : Source} {tot m k : Nat}

/-- The mapped part is within the bound. -/
theorem mapped_le : mapped src tot m ≤ m := by
  induction m generalizing tot with
  | zero => exact le_rfl
  | succ m ih =>
    rw [mapped]
    split
    · exact Nat.zero_le _
    · exact Nat.succ_le_succ ih

/-- A longer range is mapped as far as its first part, or all of that and a part
of the rest. -/
theorem mapped_add (src : Source) (tot m k : Nat) : mapped src tot (m + k) =
    if mapped src tot m < m then mapped src tot m else m + mapped src (tot + m) k := by
  induction m generalizing tot with
  | zero => simp [mapped]
  | succ m ih =>
    rw [Nat.succ_add, mapped, mapped]
    split
    · simp
    · rw [ih]
      split
      · rw [if_pos (by omega)]
      · rw [if_neg (by omega), Nat.add_right_comm, Nat.add_assoc tot 1 m, Nat.add_comm 1 m]

/-- A source that is mapped everywhere. -/
theorem mapped_all (hsrc : ∀ i < m, src (tot + i) ≠ none) : mapped src tot m = m := by
  induction m generalizing tot with
  | zero => rfl
  | succ m ih =>
    rw [mapped, if_neg (by simpa using hsrc 0 (Nat.succ_pos m)), ih]
    intro i hi
    rw [Nat.add_assoc, Nat.add_comm 1 i]
    exact hsrc (i + 1) (Nat.succ_lt_succ hi)

end Mapped

section Store

variable {sb : Superblock} {D : Nat → Dinode} {n bn i : Nat} {d : Dinode} {disk : Nat → Block}
variable {blk : Block}

/-- Blocks of the contents are referred to from one place only. -/
theorem addrOf_inj (h : Core sb disk (update D n d))
    (hn : Allocated sb (update D n d) n) {bn' : Nat} (hne : addrOf disk d bn ≠ 0)
    (heq : addrOf disk d bn = addrOf disk d bn') : bn = bn' := by
  unfold addrOf at heq hne
  have hown := owner_self hn hne
  rw [heq] at hne hown
  exact slotOf_inj (congrArg Prod.snd (h.exact.inj _ _ _ hown (owner_self hn hne)))

/-- Storing into a block of the contents. -/
theorem Grow.store (blk : Block) (h : Core sb disk (update D n d))
    (hn : Allocated sb (update D n d) n) (hne : addrOf disk d bn ≠ 0) :
    Grow sb D n ∅ d disk d (update disk (addrOf disk d bn) blk) := by
  have hself : update D n d n = d := update_self _ _ _
  have hown : owner sb disk (update D n d) (n, slotOf bn) = some (addrOf disk d bn) :=
    owner_self hn hne
  have hdata := (h.owner_data hown).1
  have hbits : ∀ b < sb.size, update disk (addrOf disk d bn) blk (bblock sb b) =
      disk (bblock sb b) := by
    intro b hb
    exact update_of_ne ((bblock_lt_nmeta hb).trans_le hdata).ne _ _
  have hind : ∀ m, Allocated sb (update D n d) m →
      (update D n d m).addrs ndirect ≠ 0 →
      update disk (addrOf disk d bn) blk ((update D n d m).addrs ndirect) =
        disk ((update D n d m).addrs ndirect) := by
    intro m hm hne'
    apply update_of_ne
    intro heq
    have hown' := Core.owner_indirect disk hm hne'
    rw [heq] at hown'
    exact slotOf_ne_ndirect (congrArg Prod.snd (h.exact.inj _ _ _ hown hown'))
  refine ⟨h.frame hbits hind, ⟨?_, ?_⟩, rfl, ?_, by simp, ?_⟩
  · intro c hc
    exact update_of_ne (hc.trans_le ((Nat.le_add_right _ _).trans hdata)).ne _ _
  · intro m s c hm hother
    apply update_of_ne
    rintro rfl
    rw [← owner_update_of_ne (d := d) hm] at hother
    exact hm (congrArg Prod.fst (h.exact.inj _ _ _ hother hown))
  · intro s _
    apply slotAddr_congr
    have hindself := hind n hn
    rwa [hself] at hindself
  · rw [freeBlocks_congr hbits]
    simp

/-- The contents after storing into one block. -/
theorem content_store (h : Core sb disk (update D n d))
    (hn : Allocated sb (update D n d) n) (hne : addrOf disk d bn ≠ 0) :
    content (update disk (addrOf disk d bn) blk) d i =
      if i / bsize = bn then blk (i % bsize) else content disk d i := by
  have hsame : addrOf (update disk (addrOf disk d bn) blk) d (i / bsize) =
      addrOf disk d (i / bsize) :=
    (Grow.store blk h hn hne).same _ (Finset.notMem_empty _)
  unfold content
  rw [hsame]
  split
  next heq =>
    rw [heq, update_self]
  next hdiff =>
    rw [update_of_ne]
    intro heq
    exact hdiff (addrOf_inj h hn hne heq.symm).symm

end Store

/-- A longer range has more slots. -/
theorem slotsOf_mono {lo lo' hi hi' : Nat} (hlo : lo' ≤ lo) (hhi : hi ≤ hi') :
    slotsOf lo hi ⊆ slotsOf lo' hi' := by
  intro s hs
  unfold slotsOf at hs ⊢
  rcases Finset.mem_union.mp hs with hs | hs
  · exact Finset.mem_union_left _
      (Finset.image_subset_image (Finset.Ico_subset_Ico hlo hhi) hs)
  · apply Finset.mem_union_right
    split at hs
    next hcond =>
      rwa [if_pos ⟨by omega, by omega⟩]
    · simp at hs

/-- Blocks that are there need no allocation. -/
theorem missing_mapped {disk : Nat → Block} {d : Dinode} {lo hi : Nat}
    (hmap : ∀ bn, lo ≤ bn → bn < hi → addrOf disk d bn ≠ 0) :
    missing disk d (slotsOf lo hi) = ∅ := by
  rw [missing, Finset.filter_eq_empty_iff]
  intro s hs hzero
  unfold slotsOf at hs
  rcases Finset.mem_union.mp hs with hs | hs
  · obtain ⟨bn, hbn, rfl⟩ := Finset.mem_image.mp hs
    exact hmap bn (Finset.mem_Ico.mp hbn).1 (Finset.mem_Ico.mp hbn).2 hzero
  · split at hs
    next hhi =>
      rw [Finset.mem_singleton.mp hs, slotAddr_direct le_rfl] at hzero
      apply hmap (hi - 1) (by omega) (by omega)
      rw [addrOf, slotOf_indirect (by omega)]
      exact slotAddr_of_no_indirect (by omega) hzero
    · simp at hs

/-- The number of blocks that `x` bytes take. -/
def blocks (x : Nat) : Nat :=
  (x + (bsize - 1)) / bsize

/-- The offset that `writei` reaches when `k` of `len` bytes could be copied: blocks
that were not copied as a whole do not count. -/
def reach (off len k : Nat) : Nat :=
  if k = len then off + len else max off ((off + k) / bsize * bsize)

/-- The outcome of the loop of `writei` from offset `off` on. -/
structure Written (sb : Superblock) (D : Nat → Dinode) (n : Nat) (src : Source)
    (tot off left : Nat) (S : Finset Nat) (d : Dinode) (disk : Nat → Block) (L : List Nat)
    (d' : Dinode) (disk' : Nat → Block) (L' : List Nat) : Prop
    extends Extends sb D n S d disk L d' disk' L' where
  slots : S ⊆ slotsOf (off / bsize) (blocks (off + left))
  reached : ∀ bn, bn * bsize < reach off left (mapped src tot left) → addrOf disk' d' bn ≠ 0
  kept : ∀ i, addrOf disk d (i / bsize) ≠ 0 → (i < off ∨ off + mapped src tot left ≤ i) →
    content disk' d' i = content disk d i
  stored : ∀ i < mapped src tot left, content disk' d' (off + i) = (src (tot + i)).getD 0

section Write

variable {fs : Fs} {D : Nat → Dinode} {n : Nat} {src : Source} {d : Dinode} {disk : Nat → Block}
variable {L : List Nat}

/-- The block of one round is among the blocks of the whole write. -/
theorem slotsOf_round {off left : Nat} (hleft : left ≠ 0) :
    slotsOf (off / bsize) (off / bsize + 1) ⊆ slotsOf (off / bsize) (blocks (off + left)) := by
  apply slotsOf_mono le_rfl
  unfold blocks bsize
  omega

/-- The blocks after `k` bytes have been copied to the block of offset `off`. -/
def roundDisk (disk : Nat → Block) (d : Dinode) (src : Source) (tot off k : Nat) : Nat → Block :=
  update disk (addrOf disk d (off / bsize))
    (copyTo (disk (addrOf disk d (off / bsize))) (off % bsize) src tot k)

/-- The slot of a block is in its range. -/
theorem slot_mem (bn : Nat) : slotOf bn ∈ slotsOf bn (bn + 1) :=
  Finset.mem_union_left _ (Finset.mem_image_of_mem _ (by simp))

/-- One round of the loop after `bmap`: the contents of the block are replaced as
far as the source is mapped. -/
theorem content_round (h : Core fs.sb disk (update D n d))
    (hn : Allocated fs.sb (update D n d) n) {tot off left k i : Nat}
    (hne : addrOf disk d (off / bsize) ≠ 0) (hk : k ≤ chunk off left) :
    content (roundDisk disk d src tot off k) d i =
      if off ≤ i ∧ i < off + k then (src (tot + (i - off))).getD 0 else content disk d i := by
  have hend : k ≤ bsize - off % bsize := hk.trans (min_le_right _ _)
  rw [roundDisk, content_store h hn hne]
  by_cases hrange : off ≤ i ∧ i < off + k
  · have hdiv : i / bsize = off / bsize := by
      unfold bsize at hend ⊢
      omega
    have hmod : i % bsize = off % bsize + (i - off) := by
      unfold bsize at hend ⊢
      omega
    rw [if_pos hdiv, if_pos hrange, copyTo, if_pos (by omega), hmod, Nat.add_sub_cancel_left]
  · rw [if_neg hrange]
    split
    next hdiv =>
      have hout : ¬(off % bsize ≤ i % bsize ∧ i % bsize < off % bsize + k) := by
        unfold bsize at hdiv ⊢
        omega
      rw [copyTo, if_neg hout, content, hdiv]
    · rfl

/-- A chunk that is not the last ends at a block boundary. -/
theorem chunk_end (off left : Nat) (hlt : chunk off left < left) :
    (off + chunk off left) / bsize * bsize = off + chunk off left := by
  unfold chunk bsize at hlt ⊢
  omega

/-- Nothing left to write. -/
theorem written_nil (h : Core fs.sb disk (update D n d)) {tot off : Nat}
    (hbelow : ∀ bn, bn * bsize < off → addrOf disk d bn ≠ 0) :
    Written fs.sb D n src tot off 0 ∅ d disk L d disk L where
  toExtends := .refl h rfl
  slots := Finset.empty_subset _
  reached := by simpa [reach, mapped] using hbelow
  kept := fun _ _ _ => rfl
  stored := by simp [mapped]

section Round

variable {tot off left k : Nat} {d₁ : Dinode} {disk₁ : Nat → Block} {L₁ : List Nat}
variable (hn : Allocated fs.sb (update D n d) n)
  (halloc : Allocates fs.sb D n (slotsOf (off / bsize) (off / bsize + 1)) d disk L d₁ disk₁ L₁)

include hn halloc

theorem allocated_round : Allocated fs.sb (update D n d₁) n :=
  (allocated_self (by rw [halloc.grow.fields])).mpr hn

/-- The state after `bmap` and the copy of `k` bytes. -/
theorem extends_round (src : Source) (tot k : Nat) (L₂ : List Nat)
    (hlog : ∀ c ∈ L₂, c ∈ L₁ ∨ c = addrOf disk₁ d₁ (off / bsize)) :
    Extends fs.sb D n (slotsOf (off / bsize) (off / bsize + 1)) d disk L d₁
      (roundDisk disk₁ d₁ src tot off k) L₂ := by
  have hslot := slot_mem (off / bsize)
  have hstore := Grow.store (copyTo (disk₁ (addrOf disk₁ d₁ (off / bsize))) (off % bsize) src tot k)
    halloc.grow.core (allocated_round hn halloc) (halloc.mapped hslot)
  constructor
  · have hgrow := halloc.grow.trans hstore
    rwa [Finset.union_empty] at hgrow
  · intro c hc
    rcases hlog c hc with hc | rfl
    · rcases halloc.logs c hc with hc | hc | ⟨s, hs, rfl⟩
      · exact Or.inl hc
      · exact Or.inr (Or.inl hc)
      · exact Or.inr (Or.inr ⟨s, hs, (hstore.same s (Finset.notMem_empty s)).symm⟩)
    · exact Or.inr (Or.inr ⟨_, hslot, (hstore.same _ (Finset.notMem_empty _)).symm⟩)

/-- The contents after one round, in terms of those after `bmap`. -/
theorem content_bmap (hk : k ≤ chunk off left) {i : Nat} :
    content (roundDisk disk₁ d₁ src tot off k) d₁ i =
      if off ≤ i ∧ i < off + k then (src (tot + (i - off))).getD 0 else content disk₁ d₁ i :=
  content_round halloc.grow.core (allocated_round hn halloc) (halloc.mapped (slot_mem _)) hk

/-- The contents after one round, where there were some before. -/
theorem content_extends (hk : k ≤ chunk off left) {i : Nat} (hmap : addrOf disk d (i / bsize) ≠ 0) :
    content (roundDisk disk₁ d₁ src tot off k) d₁ i =
      if off ≤ i ∧ i < off + k then (src (tot + (i - off))).getD 0 else content disk d i := by
  have hsame : content disk₁ d₁ i = content disk d i := by
    have haddr : addrOf disk₁ d₁ (i / bsize) = addrOf disk d (i / bsize) := halloc.grow.keep hmap
    have hdata : disk₁ (addrOf disk d (i / bsize)) = disk (addrOf disk d (i / bsize)) :=
      halloc.data _ slotOf_ne_ndirect hmap
    unfold content
    rw [haddr, hdata]
  rw [content_bmap hn halloc hk, hsame]

/-- The copy stops within the first block. -/
theorem written_fault (hleft : left ≠ 0) (hbelow : ∀ bn, bn * bsize < off → addrOf disk d bn ≠ 0)
    (hfault : mapped src tot (chunk off left) < chunk off left) :
    reach off left (mapped src tot left) = off ∧
      Written fs.sb D n src tot off left (slotsOf (off / bsize) (off / bsize + 1)) d disk L d₁
        (roundDisk disk₁ d₁ src tot off (mapped src tot (chunk off left))) L₁ := by
  have hle : chunk off left ≤ left := chunk_le
  have hmapped : mapped src tot left = mapped src tot (chunk off left) := by
    have hadd := mapped_add src tot (chunk off left) (left - chunk off left)
    rwa [Nat.add_sub_cancel' hle, if_pos hfault] at hadd
  have hreach : reach off left (mapped src tot left) = off := by
    have hin : chunk off left ≤ bsize - off % bsize := min_le_right _ _
    unfold reach
    rw [if_neg (by omega), hmapped]
    apply max_eq_left
    unfold bsize at hin ⊢
    omega
  have hext := extends_round hn halloc src tot (mapped src tot (chunk off left)) L₁ fun c hc =>
    Or.inl hc
  refine ⟨hreach, hext, slotsOf_round hleft, ?_, ?_, ?_⟩
  · intro bn hbn
    rw [hreach] at hbn
    exact hext.grow.mapped (hbelow bn hbn)
  · intro i hmap hout
    rw [content_extends hn halloc mapped_le hmap, if_neg (by omega)]
  · intro i hi
    rw [content_bmap hn halloc mapped_le, if_pos (by omega), Nat.add_sub_cancel_left]

/-- A whole chunk is copied, and the loop goes on behind it. -/
theorem written_round (hleft : left ≠ 0) (hall : mapped src tot (chunk off left) = chunk off left)
    {S : Finset Nat} {d' : Dinode} {disk' : Nat → Block} {L' : List Nat}
    (hrest : Written fs.sb D n src (tot + chunk off left) (off + chunk off left)
      (left - chunk off left) S d₁ (roundDisk disk₁ d₁ src tot off (chunk off left))
      (L₁ ++ [addrOf disk₁ d₁ (off / bsize)]) d' disk' L') :
    reach (off + chunk off left) (left - chunk off left)
        (mapped src (tot + chunk off left) (left - chunk off left)) =
      reach off left (mapped src tot left) ∧
    Written fs.sb D n src tot off left (slotsOf (off / bsize) (off / bsize + 1) ∪ S) d disk L
      d' disk' L' := by
  have hpos := chunk_pos off hleft
  have hle : chunk off left ≤ left := chunk_le
  have hmapped : mapped src tot left =
      chunk off left + mapped src (tot + chunk off left) (left - chunk off left) := by
    have hadd := mapped_add src tot (chunk off left) (left - chunk off left)
    rwa [Nat.add_sub_cancel' hle, if_neg (by omega)] at hadd
  have hreach : reach (off + chunk off left) (left - chunk off left)
        (mapped src (tot + chunk off left) (left - chunk off left)) =
      reach off left (mapped src tot left) := by
    have hk : mapped src (tot + chunk off left) (left - chunk off left) ≤ left - chunk off left :=
      mapped_le
    unfold reach
    rw [hmapped]
    by_cases hfull : mapped src (tot + chunk off left) (left - chunk off left) =
        left - chunk off left
    · rw [if_pos hfull, if_pos (by omega)]
      omega
    · have hstart := chunk_end off left (by omega)
      have hmono : (off + chunk off left) / bsize * bsize ≤ (off + (chunk off left +
          mapped src (tot + chunk off left) (left - chunk off left))) / bsize * bsize :=
        Nat.mul_le_mul_right _ (Nat.div_le_div_right (by omega))
      rw [if_neg hfull, if_neg (by omega), Nat.add_assoc, max_eq_right (by omega),
        max_eq_right (by omega)]
  have hext := extends_round hn halloc src tot (chunk off left)
    (L₁ ++ [addrOf disk₁ d₁ (off / bsize)]) fun c hc => by simpa using hc
  refine ⟨hreach, hext.trans hrest.toExtends, ?_, ?_, ?_, ?_⟩
  · apply Finset.union_subset (slotsOf_round hleft)
    refine hrest.slots.trans (slotsOf_mono (Nat.div_le_div_right (Nat.le_add_right _ _)) ?_)
    rw [Nat.add_assoc, Nat.add_sub_cancel' hle]
  · intro bn hbn
    exact hrest.reached bn (by rwa [hreach])
  · intro i hmap hout
    rw [hrest.kept i (hext.grow.mapped hmap) (by omega),
      content_extends hn halloc le_rfl hmap, if_neg (by omega)]
  · intro i hi
    by_cases hfirst : i < chunk off left
    · have hdiv : (off + i) / bsize = off / bsize := by
        have hin : chunk off left ≤ bsize - off % bsize := min_le_right _ _
        unfold bsize at hin ⊢
        omega
      rw [hrest.kept (off + i) (by rw [hdiv]; exact hext.mapped (slot_mem _)) (by omega),
        content_bmap hn halloc le_rfl, if_pos (by omega), Nat.add_sub_cancel_left]
    · have hlater := hrest.stored (i - chunk off left) (by omega)
      rwa [show off + chunk off left + (i - chunk off left) = off + i by omega,
        show tot + chunk off left + (i - chunk off left) = tot + i by omega] at hlater

end Round

/-- The loop of `writei`. -/
theorem wp_writeLoop (hop : 0 < fs.outstanding) {fuel tot off left : Nat} (hfuel : left ≤ fuel)
    (h : Core fs.sb disk (update D n d))
    (hn : Allocated fs.sb (update D n d) n) (hend : off + left ≤ maxfile * bsize)
    (hbelow : ∀ bn, bn * bsize < off → addrOf disk d bn ≠ 0) :
    Wp (writeLoop n src fuel tot off left) (during fs n d disk L)
      (fun r fs' => r = reach off left (mapped src tot left) ∧ ∃ S d' disk' L',
        fs' = during fs n d' disk' L' ∧
        Written fs.sb D n src tot off left S d disk L d' disk' L')
      (fun e _ => e = "balloc: out of blocks" ∧ (freeBlocks fs.sb disk).card <
        (missing disk d (slotsOf (off / bsize) (blocks (off + left)))).card) := by
  induction fuel generalizing tot off left d disk L with
  | zero =>
    obtain rfl : left = 0 := by omega
    rw [writeLoop, wp_pure]
    exact ⟨rfl, ∅, d, disk, L, rfl, written_nil h hbelow⟩
  | succ fuel ih =>
    rw [writeLoop]
    split
    next hleft =>
      subst hleft
      exact wp_pure.mpr ⟨rfl, ∅, d, disk, L, rfl, written_nil h hbelow⟩
    next hleft =>
      have hpos := chunk_pos off hleft
      have hle : chunk off left ≤ left := chunk_le
      have hbn : off / bsize < maxfile := by
        apply Nat.div_lt_of_lt_mul
        rw [Nat.mul_comm]
        omega
      rw [wp_bind]
      refine (wp_bmap hop h hn hbn).mono ?_ ?_
      · rintro a _ ⟨d₁, disk₁, L₁, rfl, rfl, halloc⟩
        simp only [wp_bind, wp_bread, wp_setData, during_disk]
        split
        next hfault =>
          obtain ⟨hreach, hwritten⟩ := written_fault hn halloc hleft hbelow hfault
          exact wp_pure.mpr ⟨hreach.symm, _, d₁, _, L₁, rfl, hwritten⟩
        next hfull =>
          have hall : mapped src tot (chunk off left) = chunk off left :=
            Nat.le_antisymm mapped_le (Nat.le_of_not_lt hfull)
          rw [wp_bind, wp_logWrite (by exact hop), hall]
          have hext := extends_round hn halloc src tot (chunk off left)
            (L₁ ++ [addrOf disk₁ d₁ (off / bsize)]) fun c hc => by simpa using hc
          refine (ih (by omega) hext.grow.core (allocated_round hn halloc) (by omega) ?_).mono ?_ ?_
          · -- The blocks below the new offset: those from before, and the one just filled.
            intro bn hbn
            by_cases hold : bn * bsize < off
            · exact hext.grow.mapped (hbelow bn hold)
            · have heq : bn = off / bsize := by
                have hin : chunk off left ≤ bsize - off % bsize := min_le_right _ _
                unfold bsize at hbn hold hin ⊢
                omega
              rw [heq]
              exact hext.mapped (slot_mem _)
          · rintro r _ ⟨rfl, S, d', disk', L', rfl, hrest⟩
            obtain ⟨hreach, hwritten⟩ := written_round hn halloc hleft hall hrest
            exact ⟨hreach, _, d', disk', L', rfl, hwritten⟩
          · rintro e _ ⟨rfl, hshort⟩
            refine ⟨rfl, (hext.short hshort).trans_le (missing_mono ?_)⟩
            apply Finset.union_subset (slotsOf_round hleft)
            apply slotsOf_mono (Nat.div_le_div_right (Nat.le_add_right _ _))
            rw [Nat.add_assoc, Nat.add_sub_cancel' hle]
      · rintro e _ ⟨rfl, hshort⟩
        exact ⟨rfl, hshort.trans_le (missing_mono (slotsOf_round hleft))⟩

end Write

end Fs

end Xv6
