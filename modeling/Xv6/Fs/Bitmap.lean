import Mathlib.Tactic
import Xv6.Fs.Ops

/-!
# The loops of `balloc` and `ialloc`

`balloc` goes through the bitmap with two nested loops, one over its blocks and one over the
bits of a block, and `ialloc` goes through the inodes.  Their variables are of type `int`,
the bounds `sb.size` and `sb.ninodes` of type `uint`.  The loops find what the searches of
the abstract functions find, as long as an `int` can count that far.

Main results:

- Theorem {lit}`Code.balloc_eq`, {lit}`Code.ialloc_eq`: the functions with their loops are the
  abstract ones.
- Theorem {lit}`bitmap_and_slots`: the bitmap is a set of block numbers and the inode table
  an array of slots.
- Theorem {lit}`balloc_misses_a_block`: the sign of a block number that is too large.
-/

namespace Xv6

open Lib Function

namespace Fs
namespace Code

/-! ## The functions as they are written -/

/-- An `int` converted to `uint`. -/
def ofInt (x : Int) : Nat := (x % 2 ^ 32).toNat

/-- `BBLOCK(b, sb)` for an `int`. -/
def bblock (sb : Superblock) (b : Int) : Nat := ofInt (b.tdiv bpb + sb.bmapstart)

/-- The inner loop of `balloc`, with `n` bits of the block left. -/
def scanBits (size : Nat) (blk : Block) (b : Int) : (n bi : Nat) → Option Nat
  | 0, _ => none
  | n + 1, bi =>
    if ofInt (int (b + bi)) < size then
      if bitAt blk bi = false then some bi else scanBits size blk b n (bi + 1)
    else none

/-- The outer loop of `balloc`.  It does not change anything before it has found a bit. -/
def scanBlocks (sb : Superblock) (disk : Nat → Block) : (fuel : Nat) → (b : Int) →
    Option (Option (Int × Nat))
  | 0, _ => none
  | fuel + 1, b =>
    if ofInt b < sb.size then
      match scanBits sb.size (disk (bblock sb b)) b bpb 0 with
      | some bi => some (some (b, bi))
      | none => scanBlocks sb disk fuel (int (b + bpb))
    else some none

/-- Allocate a zeroed disk block. -/
def balloc : Prog Fs Nat := do
  let fs ← get
  match scanBlocks fs.sb fs.disk (fs.sb.size / bpb + 2) 0 with
  | none => throw "loop"
  | some none => throw "balloc: out of blocks"
  | some (some (b, bi)) =>
    setData (bblock fs.sb b) (setBit (fs.disk (bblock fs.sb b)) bi)
    logWrite (bblock fs.sb b)
    bzero (ofInt (int (b + bi)))
    return ofInt (int (b + bi))

/-- `IBLOCK(inum, sb)` for an `int`; `IPB` is a `size_t`. -/
def iblock (sb : Superblock) (inum : Int) : Nat :=
  uint ((inum % 2 ^ 64).toNat / ipb + sb.inodestart)

/-- `inum % IPB`. -/
def islot (inum : Int) : Nat := (inum % 2 ^ 64).toNat % ipb

/-- The loop of `ialloc`. -/
def scanInodes (sb : Superblock) (disk : Nat → Block) : (fuel : Nat) → (inum : Int) →
    Option (Option Int)
  | 0, _ => none
  | fuel + 1, inum =>
    if ofInt inum < sb.ninodes then
      if (getDinode (disk (iblock sb inum)) (islot inum)).type = 0 then some (some inum)
      else scanInodes sb disk fuel (int (inum + 1))
    else some none

/-- Allocate an inode. -/
def ialloc (type : Nat) : Prog Fs Nat := do
  let fs ← get
  match scanInodes fs.sb fs.disk (fs.sb.ninodes + 1) 1 with
  | none => throw "loop"
  | some none => throw "ialloc: no inodes"
  | some (some inum) =>
    let blk ← bread (iblock fs.sb inum)
    setData (iblock fs.sb inum) (putDinode blk (islot inum) ⟨type, 0, 0, 0, 0, fun _ => 0⟩)
    logWrite (iblock fs.sb inum)
    iget (ofInt inum)
    return ofInt inum

/-! ## Numbers below `2 ^ 31` -/

/-- A number in the range of `uint`. -/
theorem ofInt_natCast {x : Nat} (hx : x < 2 ^ 32) : ofInt x = x := by
  unfold ofInt
  omega

/-- A number in the range of `int`. -/
theorem int_natCast {x : Nat} (hx : x < 2 ^ 31) : int x = x :=
  int_of_lt (by omega) (by omega)

/-- An `int` that has just overflowed still is the right `uint`. -/
theorem ofInt_int {x : Nat} (hx : x < 2 ^ 32) : ofInt (int x) = x := by
  have hmod : int x % 2 ^ 32 = x % 2 ^ 32 := Int.bmod_emod
  unfold ofInt
  rw [hmod]
  omega

section Balloc

variable {sb : Superblock} {disk : Nat → Block}

/-- `BBLOCK` in the range of `uint`. -/
theorem bblock_natCast {b : Nat} (hb : Xv6.bblock sb b < 2 ^ 32) :
    bblock sb b = Xv6.bblock sb b := by
  have hdiv : (b : Int).tdiv bpb + sb.bmapstart = (Xv6.bblock sb b : Nat) := by
    rw [← Int.ofNat_tdiv]
    unfold Xv6.bblock
    omega
  rw [bblock, hdiv, ofInt_natCast hb]

/-! ## The bitmap -/

/-- The inner loop returns the first clear bit of the block. -/
theorem scanBits_some {size b n bi bj : Nat} {blk : Block} (hb : b + (bi + n) < 2 ^ 32)
    (hscan : scanBits size blk b n bi = some bj) :
    bi ≤ bj ∧ bj < bi + n ∧ b + bj < size ∧ bitAt blk bj = false ∧
      ∀ c, bi ≤ c → c < bj → bitAt blk c = true := by
  induction n generalizing bi with
  | zero => exact nomatch hscan
  | succ n ih =>
    have hsum : ofInt (int ((b : Int) + bi)) = b + bi := by
      rw [← Nat.cast_add, ofInt_int (by omega)]
    rw [scanBits, hsum] at hscan
    split at hscan
    next hlt =>
      split at hscan
      next hclear =>
        cases hscan
        exact ⟨le_rfl, by omega, hlt, hclear, fun c hge hlt => absurd hge (by omega)⟩
      next hset =>
        obtain ⟨hge, hltj, hsize, hclear, hbefore⟩ := ih (by omega) hscan
        refine ⟨by omega, by omega, hsize, hclear, fun c hcge hclt => ?_⟩
        by_cases heq : c = bi
        · rw [heq]
          exact Bool.eq_true_of_not_eq_false hset
        · exact hbefore c (by omega) hclt
    next => exact nomatch hscan

/-- It returns none if all the bits are set. -/
theorem scanBits_none {size b n bi : Nat} {blk : Block} (hb : b + (bi + n) < 2 ^ 32)
    (hscan : scanBits size blk b n bi = none) :
    ∀ c, bi ≤ c → c < bi + n → b + c < size → bitAt blk c = true := by
  induction n generalizing bi with
  | zero =>
    intro c hge hlt
    omega
  | succ n ih =>
    have hsum : ofInt (int ((b : Int) + bi)) = b + bi := by
      rw [← Nat.cast_add, ofInt_int (by omega)]
    rw [scanBits, hsum] at hscan
    intro c hge hlt hsize
    split at hscan
    next =>
      split at hscan
      next => exact nomatch hscan
      next hset =>
        by_cases heq : c = bi
        · rw [heq]
          exact Bool.eq_true_of_not_eq_false hset
        · exact ih (by omega) hscan c (by omega) (by omega) hsize
    next hend => omega

/-- The bit of block `b` is clear. -/
def Clear (sb : Superblock) (disk : Nat → Block) (b : Nat) : Bool :=
  !bitAt (disk (Xv6.bblock sb b)) (b % bpb)

/-- A block has bits. -/
theorem bpb_pos : 0 < bpb := by decide

/-- The block of a bit. -/
theorem chunk_div {k bi : Nat} (hbi : bi < bpb) : (k * bpb + bi) / bpb = k := by
  rw [Nat.mul_comm, Nat.mul_add_div bpb_pos, Nat.div_eq_of_lt hbi, Nat.add_zero]

/-- The place of a bit. -/
theorem chunk_mod {k bi : Nat} (hbi : bi < bpb) : (k * bpb + bi) % bpb = bi := by
  rw [Nat.mul_comm, Nat.mul_add_mod, Nat.mod_eq_of_lt hbi]

/-- The bit `bi` of the `k`-th block of the bitmap. -/
theorem clear_chunk {k bi : Nat} (hbi : bi < bpb) :
    Clear sb disk (k * bpb + bi) = !bitAt (disk (Xv6.bblock sb (k * bpb))) bi := by
  have hblock : Xv6.bblock sb (k * bpb + bi) = Xv6.bblock sb (k * bpb) := by
    unfold Xv6.bblock
    rw [chunk_div hbi, Nat.mul_div_cancel _ bpb_pos]
  rw [Clear, chunk_mod hbi, hblock]

/-- What the loops return for the first clear bit. -/
def position : Option Nat → Option (Int × Nat) :=
  Option.map fun b => (((b / bpb * bpb : Nat) : Int), b % bpb)

/-- The outer loop finds the first clear bit if it begins in front of it. -/
theorem scanBlocks_eq (hsize : sb.size ≤ 2 ^ 31)
    (hblocks : ∀ b < sb.size, Xv6.bblock sb b < 2 ^ 32) {fuel k : Nat} (hk : k * bpb ≤ 2 ^ 31)
    (hfuel : sb.size / bpb + 2 ≤ fuel + k) (hpos : 0 < fuel)
    (hbefore : ∀ c < sb.size, c < k * bpb → Clear sb disk c = false) :
    scanBlocks sb disk fuel (int (k * bpb : Nat)) =
      some (position ((List.range sb.size).find? (Clear sb disk))) := by
  induction fuel generalizing k with
  | zero => exact absurd hpos (Nat.lt_irrefl 0)
  | succ fuel ih =>
    rw [scanBlocks, ofInt_int (by omega)]
    split
    next hlt =>
      have hroom : k * bpb + bpb ≤ 2 ^ 31 := by
        unfold bpb bsize at hlt ⊢
        omega
      rw [int_natCast (by omega), bblock_natCast (hblocks _ hlt)]
      cases hbits : scanBits sb.size (disk (Xv6.bblock sb (k * bpb))) (k * bpb : Nat) bpb 0 with
      | some bi =>
        obtain ⟨-, hbi, hin, hclear, hearlier⟩ := scanBits_some (by omega) hbits
        rw [Nat.zero_add] at hbi
        have hfirst : (List.range sb.size).find? (Clear sb disk) = some (k * bpb + bi) := by
          refine List.find?_range_eq_some.mpr ⟨?_, List.mem_range.mpr hin, fun c hc => ?_⟩
          · rw [clear_chunk hbi, hclear]
            rfl
          · by_cases hprev : c < k * bpb
            · rw [hbefore c (by omega) hprev]
              rfl
            · have hsplit : c = k * bpb + (c - k * bpb) := by omega
              rw [hsplit, clear_chunk (by omega), hearlier _ (Nat.zero_le _) (by omega)]
              rfl
        rw [hfirst, position, Option.map_some, chunk_div hbi, chunk_mod hbi]
      | none =>
        have hnext : ((k * bpb : Nat) : Int) + bpb = ((k + 1) * bpb : Nat) := by
          rw [Nat.succ_mul, Nat.cast_add]
        simp only [hnext]
        have hsucc : (k + 1) * bpb = k * bpb + bpb := Nat.succ_mul k bpb
        have hdiv : k ≤ sb.size / bpb := (Nat.le_div_iff_mul_le bpb_pos).mpr hlt.le
        refine ih (by omega) (by omega) (by omega) fun c hc hlt => ?_
        by_cases hprev : c < k * bpb
        · exact hbefore c hc hprev
        · have hsplit : c = k * bpb + (c - k * bpb) := by omega
          have hset := scanBits_none (by omega) hbits (c - k * bpb) (Nat.zero_le _) (by omega)
            (by omega)
          rw [hsplit, clear_chunk (by omega), hset]
          rfl
    next hend =>
      have hnone : (List.range sb.size).find? (Clear sb disk) = none := by
        refine List.find?_eq_none.mpr fun c hc => ?_
        rw [hbefore c (List.mem_range.mp hc) (by have := List.mem_range.mp hc; omega)]
        exact Bool.false_ne_true
      rw [hnone]
      rfl

end Balloc

/-- A program that begins by reading the state. -/
theorem bind_get_apply {α : Type} (f : Fs → Prog Fs α) (fs : Fs) :
    (get >>= f : Prog Fs α) fs = f fs fs := rfl

/-- `balloc` with its loops is the `balloc` that takes the first clear bit. -/
theorem balloc_eq {fs : Fs} (hsize : fs.sb.size ≤ 2 ^ 31)
    (hblocks : ∀ b < fs.sb.size, Xv6.bblock fs.sb b < 2 ^ 32) : balloc fs = Fs.balloc fs := by
  have hscan : scanBlocks fs.sb fs.disk (fs.sb.size / bpb + 2) 0 =
      some (position ((List.range fs.sb.size).find? (Clear fs.sb fs.disk))) := by
    have hzero : (0 : Int) = int (0 * bpb : Nat) := by decide
    rw [hzero]
    exact scanBlocks_eq hsize hblocks (by omega) le_rfl (Nat.succ_pos _) fun c _ hc => by omega
  have hclear : (fun b => !bitAt (fs.disk (Xv6.bblock fs.sb b)) (b % bpb)) =
      Clear fs.sb fs.disk := rfl
  rw [balloc, Fs.balloc, bind_get_apply, bind_get_apply, hscan, hclear]
  cases hfind : (List.range fs.sb.size).find? (Clear fs.sb fs.disk) with
  | none => rfl
  | some b =>
    have hlt : b < fs.sb.size := List.mem_range.mp (List.mem_of_find?_eq_some hfind)
    have hround : b / bpb * bpb ≤ b := Nat.div_mul_le_self b bpb
    have hblock : bblock fs.sb (b / bpb * bpb : Nat) = Xv6.bblock fs.sb b := by
      have hsame : Xv6.bblock fs.sb (b / bpb * bpb) = Xv6.bblock fs.sb b := by
        unfold Xv6.bblock
        rw [Nat.mul_div_cancel _ bpb_pos]
      rw [bblock_natCast (by rw [hsame]; exact hblocks b hlt), hsame]
    have hsum : ofInt (int (((b / bpb * bpb : Nat) : Int) + (b % bpb : Nat))) = b := by
      rw [← Nat.cast_add, Nat.div_add_mod', ofInt_int (by omega)]
    simp only [position, Option.map_some, hblock, hsum]

section Ialloc

variable {sb : Superblock} {disk : Nat → Block}

/-- `IBLOCK` in the range of `uint`. -/
theorem iblock_natCast {n : Nat} (hn : n < 2 ^ 64) (hlt : Xv6.iblock sb n < 2 ^ 32) :
    iblock sb n = Xv6.iblock sb n := by
  have hnat : ((n : Int) % 2 ^ 64).toNat = n := by omega
  rw [iblock, hnat]
  exact uint_of_lt hlt

/-- The place of an inode in its block. -/
theorem islot_natCast {n : Nat} (hn : n < 2 ^ 64) : islot n = n % ipb := by
  have hnat : ((n : Int) % 2 ^ 64).toNat = n := by omega
  rw [islot, hnat]

/-- Inode `n` is free on the disk. -/
def Vacant (sb : Superblock) (disk : Nat → Block) (n : Nat) : Bool :=
  (getDinode (disk (Xv6.iblock sb n)) (n % ipb)).type = 0

/-- The scan of `ialloc` finds the first free inode. -/
theorem scanInodes_eq (hninodes : sb.ninodes ≤ 2 ^ 31)
    (hblocks : ∀ n < sb.ninodes, Xv6.iblock sb n < 2 ^ 32) {fuel n : Nat} (hn : n ≤ 2 ^ 31)
    (hfuel : sb.ninodes < fuel + n) (hpos : 0 < fuel) :
    scanInodes sb disk fuel (int n) =
      some (((List.range' n (sb.ninodes - n)).find? (Vacant sb disk)).map Nat.cast) := by
  induction fuel generalizing n with
  | zero => exact absurd hpos (Nat.lt_irrefl 0)
  | succ fuel ih =>
    rw [scanInodes, ofInt_int (by omega)]
    split
    next hlt =>
      obtain ⟨more, hmore⟩ : ∃ more, sb.ninodes - n = more + 1 := ⟨sb.ninodes - n - 1, by omega⟩
      rw [int_natCast (by omega), iblock_natCast (by omega) (hblocks n hlt),
        islot_natCast (by omega), hmore, List.range'_succ, List.find?_cons]
      by_cases hvacant : (getDinode (disk (Xv6.iblock sb n)) (n % ipb)).type = 0
      · rw [if_pos hvacant, Vacant, decide_eq_true hvacant]
        rfl
      · rw [if_neg hvacant, Vacant, decide_eq_false hvacant]
        have hrest : more = sb.ninodes - (n + 1) := by omega
        rw [hrest, ← ih (by omega) (by omega) (by omega)]
        rfl
    next hend =>
      rw [show sb.ninodes - n = 0 by omega]
      rfl

end Ialloc

/-- `ialloc` with its loop is the `ialloc` that takes the first free inode. -/
theorem ialloc_eq {fs : Fs} (type : Nat) (hninodes : fs.sb.ninodes ≤ 2 ^ 31)
    (hblocks : ∀ n < fs.sb.ninodes, Xv6.iblock fs.sb n < 2 ^ 32) :
    ialloc type fs = Fs.ialloc type fs := by
  have hscan : scanInodes fs.sb fs.disk (fs.sb.ninodes + 1) 1 =
      some (((List.range' 1 (fs.sb.ninodes - 1)).find? (Vacant fs.sb fs.disk)).map Nat.cast) := by
    have hone : (1 : Int) = int (1 : Nat) := by decide
    rw [hone]
    exact scanInodes_eq hninodes hblocks (by decide) (by omega) (by omega)
  have hvacant : (fun n => decide ((fs.dinode n).type = 0)) = Vacant fs.sb fs.disk := rfl
  rw [ialloc, Fs.ialloc, bind_get_apply, bind_get_apply, hscan, hvacant]
  cases hfind : (List.range' 1 (fs.sb.ninodes - 1)).find? (Vacant fs.sb fs.disk) with
  | none => rfl
  | some n =>
    have hlt : n < fs.sb.ninodes := by
      have hmem := List.mem_range'_1.mp (List.mem_of_find?_eq_some hfind)
      omega
    simp only [Option.map_some, iblock_natCast (by omega : n < 2 ^ 64) (hblocks n hlt),
      islot_natCast (by omega : n < 2 ^ 64), ofInt_natCast (by omega : n < 2 ^ 32)]
    rfl

end Code

/-! ## A set of blocks and an array of inodes -/

section Spec

variable {fs fs' : Fs} {b n : Nat}

/-- `balloc` has returned `b`: it was the least block with a clear bit, this bit and no other
is set, this block and no other is zeroed. -/
structure Took (fs fs' : Fs) (b : Nat) : Prop where
  lt : b < fs.sb.size
  unused : b ∉ used fs.sb fs.disk
  least : ∀ c < b, c ∈ used fs.sb fs.disk
  insert : used fs.sb fs'.disk = insert b (used fs.sb fs.disk)
  bit : ∀ bi, bitAt (fs'.disk (bblock fs.sb b)) bi =
    (decide (bi = b % bpb) || bitAt (fs.disk (bblock fs.sb b)) bi)
  zero : fs'.disk b = fun _ => 0
  same : ∀ c, c ≠ b → c ≠ bblock fs.sb b → fs'.disk c = fs.disk c
  frame : fs' = { fs with disk := fs'.disk, logged := fs.logged ++ [bblock fs.sb b, b] }

/-- `bfree(b)` has returned: the bit of `b` and no other is cleared. -/
structure Gave (fs fs' : Fs) (b : Nat) : Prop where
  erase : used fs.sb fs'.disk = used fs.sb fs.disk \ {b}
  bit : ∀ bi, bitAt (fs'.disk (bblock fs.sb b)) bi =
    (decide (bi ≠ b % bpb) && bitAt (fs.disk (bblock fs.sb b)) bi)
  same : ∀ c, c ≠ bblock fs.sb b → fs'.disk c = fs.disk c
  frame : fs' = { fs with disk := fs'.disk, logged := fs.logged ++ [bblock fs.sb b] }

/-- `ialloc` has stored a fresh inode in slot `n`, which was the first free one, and has
changed no byte outside the slot. -/
structure Filled (fs fs' : Fs) (type n : Nat) : Prop where
  pos : 1 ≤ n
  lt : n < fs.sb.ninodes
  vacant : (fs.dinode n).type = 0
  least : ∀ m, 1 ≤ m → m < n → (fs.dinode m).type ≠ 0
  slot : getDinode (fs'.disk (iblock fs.sb n)) (n % ipb) = ⟨type, 0, 0, 0, 0, fun _ => 0⟩
  byte : ∀ i, ¬(64 * (n % ipb) ≤ i ∧ i < 64 * (n % ipb) + 64) →
    fs'.disk (iblock fs.sb n) i = fs.disk (iblock fs.sb n) i
  same : ∀ c, c ≠ iblock fs.sb n → fs'.disk c = fs.disk c

/-- What `balloc` has done. -/
theorem took_allocDisk (hfree : b ∈ freeBlocks fs.sb fs.disk)
    (hfirst : ∀ c < b, c ∈ used fs.sb fs.disk)
    (hbits : ∀ c < fs.sb.size, bblock fs.sb c ∈ used fs.sb fs.disk) :
    Took fs { fs with
      disk := allocDisk fs.sb fs.disk b, logged := fs.logged ++ [bblock fs.sb b, b] } b := by
  obtain ⟨hlt, hunused⟩ := mem_freeBlocks.mp hfree
  have hbitmap : ∀ c < fs.sb.size, bblock fs.sb c ≠ b := fun c hc heq =>
    hunused (heq ▸ hbits c hc)
  refine ⟨hlt, hunused, hfirst, used_allocDisk_of_ne hlt hbitmap, fun bi => ?_, allocDisk_self,
    fun c => allocDisk_of_ne, rfl⟩
  change bitAt (allocDisk fs.sb fs.disk b (bblock fs.sb b)) bi = _
  unfold allocDisk
  rw [update_of_ne (hbitmap b hlt), update_self, bitAt_setBit]

/-- `balloc` takes the first free block. -/
theorem wp_balloc_took (hop : 0 < fs.outstanding)
    (hbits : ∀ c < fs.sb.size, bblock fs.sb c ∈ used fs.sb fs.disk) :
    Wp Fs.balloc fs (fun b fs' => Took fs fs' b)
      (fun e fs' => e = "balloc: out of blocks" ∧ fs' = fs ∧
        ∀ b < fs.sb.size, b ∈ used fs.sb fs.disk) := by
  have hpanic : Wp Fs.balloc fs (fun _ _ => True) (fun _ fs' => fs' = fs) := by
    simp only [Fs.balloc, wp_bind, wp_get]
    split
    next => exact wp_throw.mpr rfl
    next =>
      simp only [wp_bind, wp_setData]
      rw [wp_logWrite (by exact hop), wp_bzero (by exact hop), wp_pure]
      trivial
  refine ((wp_balloc hop).and hpanic).mono ?_ ?_
  · rintro b fs' ⟨⟨hfree, hfirst, rfl⟩, -⟩
    exact took_allocDisk hfree hfirst hbits
  · rintro e fs' ⟨⟨rfl, hnone⟩, hsame⟩
    refine ⟨rfl, hsame, fun b hb => ?_⟩
    by_contra hunused
    exact Finset.notMem_empty b (hnone ▸ mem_freeBlocks.mpr ⟨hb, hunused⟩)

/-- What `bfree` has done. -/
theorem gave_freeDisk : Gave fs { fs with
    disk := freeDisk fs.sb fs.disk b, logged := fs.logged ++ [bblock fs.sb b] } b := by
  refine ⟨used_freeDisk, fun bi => ?_, fun c => freeDisk_of_ne, rfl⟩
  change bitAt (freeDisk fs.sb fs.disk b (bblock fs.sb b)) bi = _
  unfold freeDisk
  rw [update_self, bitAt_clearBit]

/-- A byte is the number of width one at its place. -/
theorem eq_of_getLE_one {blk blk' : Block} {i : Nat} (h : getLE blk i 1 = getLE blk' i 1) :
    blk i = blk' i := by
  apply UInt8.toNat_inj.mp
  simpa [getLE] using h

/-- Each inode has its own place. -/
theorem iblock_mod_inj {sb : Superblock} {m n : Nat} (hblock : iblock sb m = iblock sb n)
    (hslot : m % ipb = n % ipb) : m = n := by
  have hdiv : m / ipb = n / ipb := Nat.add_right_cancel hblock
  rw [← Nat.div_add_mod m ipb, hdiv, hslot, Nat.div_add_mod]

/-- What `ialloc` does to the disk before it calls `iget`. -/
theorem filled_update {type : Nat} {disk : Nat → Block} (htype : type < 2 ^ 16)
    (hfind : (List.range' 1 (fs.sb.ninodes - 1)).find? (fun n => (fs.dinode n).type = 0) = some n)
    (hdisk : disk = update fs.disk (iblock fs.sb n)
      (putDinode (fs.disk (iblock fs.sb n)) (n % ipb) (fresh type)))
    (hfs' : fs'.disk = disk) : Filled fs fs' type n := by
  obtain ⟨hvacant, hmem, hfirst⟩ := List.find?_range'_eq_some.mp hfind
  have hrange := List.mem_range'_1.mp hmem
  refine ⟨hrange.1, by omega, by simpa using hvacant, fun m hm hlt => ?_, ?_, fun i hi => ?_,
    fun c hc => ?_⟩
  · simpa using hfirst m hm hlt
  · rw [hfs', hdisk, update_self]
    exact getDinode_putDinode_same (fits_fresh htype)
  · rw [hfs', hdisk, update_self]
    exact eq_of_getLE_one (getLE_putDinode_of_outside (by omega))
  · rw [hfs', hdisk, update_of_ne hc]

/-- `ialloc` fills the first free inode. -/
theorem wp_ialloc_filled {type : Nat} (hop : 0 < fs.outstanding) (htype : type < 2 ^ 16) :
    Wp (Fs.ialloc type) fs (fun n fs' => Filled fs fs' type n)
      (fun e fs' => (e = "ialloc: no inodes" ∧ fs' = fs ∧
          ∀ n, 1 ≤ n → n < fs.sb.ninodes → (fs.dinode n).type ≠ 0) ∨
        e = "iget: no inodes" ∧ ninode ≤ fs.active) := by
  simp only [Fs.ialloc, wp_bind, wp_get]
  split
  next hnone =>
    refine wp_throw.mpr (Or.inl ⟨rfl, rfl, fun n hpos hlt => ?_⟩)
    simpa using List.find?_eq_none.mp hnone n (List.mem_range'_1.mpr (by omega))
  next n hfind =>
    simp only [putInode, wp_bind, wp_get, wp_bread, wp_setData]
    rw [wp_logWrite (by exact hop)]
    simp only [iget, wp_bind, wp_get]
    split
    next =>
      simp only [setInode, wp_modify, wp_pure]
      exact filled_update htype hfind rfl rfl
    next =>
      split
      next hfull => exact wp_throw.mpr (Or.inr ⟨rfl, hfull⟩)
      next =>
        simp only [setInode, wp_bind, wp_modify, wp_pure]
        exact filled_update htype hfind rfl rfl

/-- On a disk whose blocks and inodes an `int` can count, the bitmap is a set of block numbers:
`balloc` inserts the least number that is not in it, `bfree` removes a number, and every block
has a bit of its own.  `ialloc` fills the first free slot of the inode table, and every inode
has a slot of its own. -/
theorem bitmap_and_slots (fs : Fs) (hop : 0 < fs.outstanding) (hsize : fs.sb.size ≤ 2 ^ 31)
    (hninodes : fs.sb.ninodes ≤ 2 ^ 31)
    (hbits : ∀ b < fs.sb.size, bblock fs.sb b ∈ used fs.sb fs.disk)
    (hinodes : ∀ n < fs.sb.ninodes, iblock fs.sb n ∈ used fs.sb fs.disk) :
    Wp Code.balloc fs (fun b fs' => Took fs fs' b)
      (fun e fs' => e = "balloc: out of blocks" ∧ fs' = fs ∧
        ∀ b < fs.sb.size, b ∈ used fs.sb fs.disk) ∧
    (∀ b < fs.sb.size, Wp (bfree b) fs
      (fun _ fs' => b ∈ used fs.sb fs.disk ∧ Gave fs fs' b)
      (fun e fs' => e = "freeing free block" ∧ fs' = fs ∧ b ∉ used fs.sb fs.disk)) ∧
    (∀ b c, bblock fs.sb b = bblock fs.sb c → b % bpb / 8 = c % bpb / 8 →
      b % bpb % 8 = c % bpb % 8 → b = c) ∧
    (∀ type < 2 ^ 16, Wp (Code.ialloc type) fs (fun n fs' => Filled fs fs' type n)
      (fun e fs' => (e = "ialloc: no inodes" ∧ fs' = fs ∧
          ∀ n, 1 ≤ n → n < fs.sb.ninodes → (fs.dinode n).type ≠ 0) ∨
        e = "iget: no inodes" ∧ ninode ≤ fs.active)) ∧
    (∀ m n, iblock fs.sb m = iblock fs.sb n → m % ipb = n % ipb → m = n) := by
  have hblocks : ∀ b < fs.sb.size, bblock fs.sb b < 2 ^ 32 := fun b hb => by
    have hlt := (hbits b hb).1
    omega
  have hiblocks : ∀ n < fs.sb.ninodes, iblock fs.sb n < 2 ^ 32 := fun n hn => by
    have hlt := (hinodes n hn).1
    omega
  refine ⟨?_, fun b hb => ?_, fun b c hblock hbyte hbit => ?_, fun type htype => ?_,
    fun m n => iblock_mod_inj⟩
  · exact (wp_balloc_took hop hbits).of_eq (Code.balloc_eq hsize hblocks)
  · by_cases hused : b ∈ used fs.sb fs.disk
    · exact (wp_bfree hop hused).mpr ⟨hused, gave_freeDisk⟩
    · have hclear : ¬bitAt (fs.disk (bblock fs.sb b)) (b % bpb) = true := fun hbit =>
        hused ⟨hb, hbit⟩
      simp only [bfree, wp_bind, wp_get, wp_bread, if_neg hclear]
      exact wp_throw.mpr ⟨rfl, rfl, hused⟩
  · exact bblock_mod_inj hblock (by omega)
  · exact (wp_ialloc_filled hop htype).of_eq (Code.ialloc_eq type hninodes hiblocks)

/-- A disk of ten blocks, of which the first five are in use, and one inode, which is free. -/
def small : Fs where
  sb := ⟨10, 2, 1, 2, 3, 4⟩
  disk := fun b _ => if b = 4 then 31 else 0
  icache := fun _ => ⟨0, false, false, fresh 0⟩
  active := 0
  outstanding := 1
  logged := []

/-- Block 5 is allocated, block 4 is freed, and inode 1 is allocated. -/
theorem bitmap_and_slots_small :
    (∃ fs', Code.balloc small = .ok 5 fs' ∧ Took small fs' 5) ∧
    (∃ fs', bfree 4 small = .ok () fs' ∧ Gave small fs' 4) ∧
    ∃ fs', Code.ialloc tFile small = .ok 1 fs' ∧ Filled small fs' tFile 1 := by
  obtain ⟨hballoc, hbfree, -, hialloc, -⟩ :=
    bitmap_and_slots small (by decide) (by decide) (by decide) (by decide) (by decide)
  obtain ⟨fs₁, h₁⟩ := exists_ok (show outcome Code.balloc small = .ok 5 by decide +kernel)
  obtain ⟨fs₂, h₂⟩ := exists_ok (show outcome (bfree 4) small = .ok () by decide +kernel)
  obtain ⟨fs₃, h₃⟩ := exists_ok (show outcome (Code.ialloc tFile) small = .ok 1 by decide +kernel)
  exact ⟨⟨fs₁, h₁, hballoc.of_ok h₁⟩, ⟨fs₂, h₂, ((hbfree 4 (by decide)).of_ok h₂).2⟩,
    fs₃, h₃, (hialloc tFile (by decide)).of_ok h₃⟩

end Spec

/-! ## A disk that is too large -/

/-- A block of the bitmap whose bits are all set. -/
def fullBlock : Block := fun _ => 255

/-- All bits are set. -/
theorem bitAt_fullBlock (bi : Nat) : bitAt fullBlock bi = true := by
  have hlt : bi % 8 < 8 := Nat.mod_lt _ (by decide)
  change Nat.testBit 255 (bi % 8) = true
  interval_cases bi % 8 <;> rfl

/-- A disk of `2 ^ 31 + 1` blocks of which only the last one is free. -/
def huge : Fs where
  sb := ⟨2 ^ 31 + 1, 16, 30, 2, 32, 2 ^ 20⟩
  disk := fun c => if c = 2 ^ 20 + 2 ^ 18 then update fullBlock 0 254 else fullBlock
  icache := fun _ => ⟨0, false, false, fresh 0⟩
  active := 0
  outstanding := 1
  logged := []

/-- All blocks but one are full. -/
theorem disk_huge {c : Nat} (hc : c ≠ 2 ^ 20 + 2 ^ 18) : huge.disk c = fullBlock := if_neg hc

/-- The blocks of the bitmap. -/
theorem bblock_huge (b : Nat) : bblock huge.sb b = b / 8192 + 2 ^ 20 := rfl

/-- Every block below `2 ^ 31` is in use. -/
theorem mem_used_huge {b : Nat} (hb : b < 2 ^ 31) : b ∈ used huge.sb huge.disk := by
  refine ⟨Nat.lt_succ_of_lt hb, ?_⟩
  rw [disk_huge (by rw [bblock_huge]; omega)]
  exact bitAt_fullBlock _

/-- The last block is free. -/
theorem last_notMem_used_huge : 2 ^ 31 ∉ used huge.sb huge.disk := by
  rintro ⟨-, hbit⟩
  have hblock : bblock huge.sb (2 ^ 31) = 2 ^ 20 + 2 ^ 18 := by
    rw [bblock_huge]
    omega
  have hlast : huge.disk (2 ^ 20 + 2 ^ 18) = update fullBlock 0 254 := by simp [huge]
  rw [hblock, hlast] at hbit
  exact absurd hbit (by decide)

namespace Code

/-- The inner loop passes over a block whose bits are all set. -/
theorem scanBits_fullBlock (size : Nat) (b : Int) (n bi : Nat) :
    scanBits size fullBlock b n bi = none := by
  induction n generalizing bi with
  | zero => rfl
  | succ n ih =>
    rw [scanBits, bitAt_fullBlock, ih (bi + 1)]
    simp

/-- One round of the outer loop over such a block. -/
theorem scanBlocks_fullBlock {sb : Superblock} {disk : Nat → Block} {fuel : Nat} {b : Int}
    (hb : ofInt b < sb.size) (hfull : disk (bblock sb b) = fullBlock) :
    scanBlocks sb disk (fuel + 1) b = scanBlocks sb disk fuel (int (b + bpb)) := by
  rw [scanBlocks, if_pos hb, hfull, scanBits_fullBlock]

/-- The panic of `balloc`. -/
theorem balloc_out {fs : Fs}
    (hscan : scanBlocks fs.sb fs.disk (fs.sb.size / bpb + 2) 0 = some none) :
    balloc fs = .error "balloc: out of blocks" fs := by
  unfold balloc
  change (match scanBlocks fs.sb fs.disk (fs.sb.size / bpb + 2) 0 with
    | none => throw "loop"
    | some none => throw "balloc: out of blocks"
    | some (some (b, bi)) => _ : Prog Fs Nat) fs = _
  rw [hscan]
  rfl

/-- The first `2 ^ 18` rounds on the huge disk. -/
theorem scanBlocks_huge {fuel k : Nat} (hk : k ≤ 2 ^ 18) :
    scanBlocks huge.sb huge.disk (fuel + k) 0 =
      scanBlocks huge.sb huge.disk fuel (int (k * 8192 : Nat)) := by
  induction k generalizing fuel with
  | zero => rfl
  | succ k ih =>
    have hsmall : k * 8192 < 2 ^ 31 := by omega
    have hblock : Xv6.bblock huge.sb (k * 8192) = k + 2 ^ 20 := by
      rw [bblock_huge]
      omega
    rw [← Nat.add_assoc, Nat.add_right_comm, ih (by omega), int_natCast hsmall]
    have hround := @scanBlocks_fullBlock huge.sb huge.disk fuel (k * 8192 : Nat)
      (by rw [ofInt_natCast (by omega)]; exact Nat.lt_succ_of_lt hsmall)
      (by rw [bblock_natCast (by omega), hblock, disk_huge (by omega)])
    have hnext : ((k * 8192 : Nat) : Int) + bpb = ((k + 1) * 8192 : Nat) := by
      unfold bpb bsize
      omega
    rw [hround, hnext]

end Code

/-- On the huge disk one block is free, but the `int` that is to count up to it has become
negative, and `balloc` looks for its bit in front of the bitmap. -/
theorem balloc_misses_a_block :
    0 < huge.outstanding ∧
    (∀ b < huge.sb.size, bblock huge.sb b ∈ used huge.sb huge.disk) ∧
    (∀ n < huge.sb.ninodes, iblock huge.sb n ∈ used huge.sb huge.disk) ∧
    2 ^ 31 < huge.sb.size ∧ 2 ^ 31 ∉ used huge.sb huge.disk ∧
    Code.balloc huge = .error "balloc: out of blocks" huge := by
  refine ⟨by decide, fun b hb => mem_used_huge ?_, fun n hn => mem_used_huge ?_, by decide,
    last_notMem_used_huge, ?_⟩
  · have hsize : b < 2 ^ 31 + 1 := hb
    rw [bblock_huge]
    omega
  · have hlt : n < 16 := hn
    change n / 16 + 32 < 2 ^ 31
    omega
  · have hscan : Code.scanBlocks huge.sb huge.disk (huge.sb.size / bpb + 2) 0 = some none := by
      have hfuel : huge.sb.size / bpb + 2 = 2 + 2 ^ 18 := by decide
      have hnegative : Code.bblock huge.sb (int (2 ^ 18 * 8192 : Nat)) = 2 ^ 20 - 2 ^ 18 := by
        decide
      rw [hfuel, Code.scanBlocks_huge le_rfl, Code.scanBlocks_fullBlock (by decide)
        (by rw [hnegative, disk_huge (by decide)])]
      exact if_neg (by decide)
    exact Code.balloc_out hscan

end Fs
end Xv6
