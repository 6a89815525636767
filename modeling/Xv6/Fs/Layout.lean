import Mathlib.Tactic
import Xv6.Lib.Bytes
import Xv6.Param

/-!
# On-disk layout

The structures that `fs.h` lays out in blocks: inodes, the free bitmap, block
numbers in indirect blocks, and directory entries.

Main results:

- Theorem {lit}`getDinode_putDinode_same`, {lit}`getDinode_putDinode_of_ne`: an inode stored in
  its block is read back, and the other inodes of the block are unchanged.
- Theorem {lit}`bitAt_setBit`, {lit}`bitAt_clearBit`: the effect of the bitmap updates.
-/

namespace Xv6

open Lib Function

/-! ## Constants of `fs.h` and `stat.h` -/

/-- Root i-number. -/
def rootino : Nat := 1

def ndirect : Nat := 12

def nindirect : Nat := bsize / 4

def maxfile : Nat := ndirect + nindirect

/-- Inodes per block. -/
def ipb : Nat := bsize / 64

/-- Bitmap bits per block. -/
def bpb : Nat := bsize * 8

def dirsiz : Nat := 14

/-- Size of a `struct dirent`. -/
def direntSize : Nat := 16

def tDir : Nat := 1

def tFile : Nat := 2

def tDevice : Nat := 3

/-- Block containing inode `i`. -/
def iblock (sb : Superblock) (i : Nat) : Nat := i / ipb + sb.inodestart

/-- Block of the free map that contains the bit for block `b`. -/
def bblock (sb : Superblock) (b : Nat) : Nat := b / bpb + sb.bmapstart

/-! ## Bits -/

/-- `data[bi/8] & (1 << (bi % 8))`. -/
def bitAt (blk : Block) (bi : Nat) : Bool :=
  (blk (bi / 8)).toNat.testBit (bi % 8)

/-- `data[bi/8] |= 1 << (bi % 8)`. -/
def setBit (blk : Block) (bi : Nat) : Block :=
  update blk (bi / 8) (.ofNat ((blk (bi / 8)).toNat ||| 2 ^ (bi % 8)))

/-- `data[bi/8] &= ~(1 << (bi % 8))`. -/
def clearBit (blk : Block) (bi : Nat) : Block :=
  update blk (bi / 8) (.ofNat ((blk (bi / 8)).toNat &&& (255 ^^^ 2 ^ (bi % 8))))

private theorem two_pow_lt (bi : Nat) : 2 ^ (bi % 8) < 2 ^ 8 :=
  Nat.pow_lt_pow_right (by decide) (Nat.mod_lt _ (by decide))

/-- The bits after setting one. -/
theorem bitAt_setBit (blk : Block) (bi bj : Nat) :
    bitAt (setBit blk bi) bj = (decide (bj = bi) || bitAt blk bj) := by
  have hlt : (blk (bi / 8)).toNat ||| 2 ^ (bi % 8) < 2 ^ 8 :=
    Nat.or_lt_two_pow (blk (bi / 8)).toNat_lt (two_pow_lt bi)
  unfold bitAt setBit
  by_cases hbyte : bj / 8 = bi / 8
  · have hiff : bi % 8 = bj % 8 ↔ bj = bi := by omega
    rw [hbyte, update_self, UInt8.toNat_ofNat', Nat.mod_eq_of_lt hlt, Nat.testBit_or,
      Nat.testBit_two_pow, Bool.or_comm]
    simp only [hiff]
  · have hne : bj ≠ bi := by
      rintro rfl
      exact hbyte rfl
    rw [update_of_ne hbyte]
    simp [hne]

/-- The bits after clearing one. -/
theorem bitAt_clearBit (blk : Block) (bi bj : Nat) :
    bitAt (clearBit blk bi) bj = (decide (bj ≠ bi) && bitAt blk bj) := by
  have hlt : (blk (bi / 8)).toNat &&& (255 ^^^ 2 ^ (bi % 8)) < 2 ^ 8 :=
    Nat.lt_of_le_of_lt Nat.and_le_left (blk (bi / 8)).toNat_lt
  unfold bitAt clearBit
  by_cases hbyte : bj / 8 = bi / 8
  · have hiff : bi % 8 = bj % 8 ↔ bj = bi := by omega
    have hones : Nat.testBit 255 (bj % 8) = true := by
      have hcase : bj % 8 < 8 := Nat.mod_lt _ (by decide)
      interval_cases bj % 8 <;> rfl
    rw [hbyte, update_self, UInt8.toNat_ofNat', Nat.mod_eq_of_lt hlt, Nat.testBit_and,
      Nat.testBit_xor, Nat.testBit_two_pow, hones, Bool.and_comm]
    simp only [hiff]
    by_cases hji : bj = bi <;> simp [hji]
  · have hne : bj ≠ bi := by
      rintro rfl
      exact hbyte rfl
    rw [update_of_ne hbyte]
    simp [hne]

/-! ## Inodes on disk -/

/-- `struct dinode`. -/
@[ext]
structure Dinode where
  type : Nat
  major : Nat
  minor : Nat
  nlink : Nat
  size : Nat
  addrs : Nat → Nat

/-- The fields fit their C types, and there are `NDIRECT + 1` addresses. -/
structure Dinode.Fits (d : Dinode) : Prop where
  type : d.type < 2 ^ 16
  major : d.major < 2 ^ 16
  minor : d.minor < 2 ^ 16
  nlink : d.nlink < 2 ^ 16
  size : d.size < 2 ^ 32
  addr : ∀ i, d.addrs i < 2 ^ 32
  outside : ∀ i, ndirect < i → d.addrs i = 0

/-- The `k`-th inode of a block. -/
def getDinode (blk : Block) (k : Nat) : Dinode where
  type := getLE blk (64 * k) 2
  major := getLE blk (64 * k + 2) 2
  minor := getLE blk (64 * k + 4) 2
  nlink := getLE blk (64 * k + 6) 2
  size := getLE blk (64 * k + 8) 4
  addrs := fun i => if i ≤ ndirect then getLE blk (64 * k + 12 + 4 * i) 4 else 0

/-- Store the addresses of an inode. -/
def putAddrs (blk : Block) (k : Nat) (addrs : Nat → Nat) (n : Nat) : Block :=
  (List.range n).foldl (fun blk i => putLE blk (64 * k + 12 + 4 * i) 4 (addrs i)) blk

/-- Store the `k`-th inode of a block. -/
def putDinode (blk : Block) (k : Nat) (d : Dinode) : Block :=
  let blk := putLE blk (64 * k) 2 d.type
  let blk := putLE blk (64 * k + 2) 2 d.major
  let blk := putLE blk (64 * k + 4) 2 d.minor
  let blk := putLE blk (64 * k + 6) 2 d.nlink
  let blk := putLE blk (64 * k + 8) 4 d.size
  putAddrs blk k d.addrs (ndirect + 1)

/-- One more address. -/
theorem putAddrs_succ (blk : Block) (k : Nat) (addrs : Nat → Nat) (n : Nat) :
    putAddrs blk k addrs (n + 1) =
      putLE (putAddrs blk k addrs n) (64 * k + 12 + 4 * n) 4 (addrs n) := by
  simp [putAddrs, List.range_succ]

/-- A number outside the addresses is unchanged. -/
theorem getLE_putAddrs_of_outside {blk : Block} {k n off width : Nat} {addrs : Nat → Nat}
    (hout : off + width ≤ 64 * k + 12 ∨ 64 * k + 12 + 4 * n ≤ off) :
    getLE (putAddrs blk k addrs n) off width = getLE blk off width := by
  induction n with
  | zero => rfl
  | succ n ih =>
    rw [putAddrs_succ, getLE_putLE_of_disjoint (by omega), ih (by omega)]

/-- Reading back an address. -/
theorem getLE_putAddrs {blk : Block} {k n i : Nat} {addrs : Nat → Nat} (hi : i < n) :
    getLE (putAddrs blk k addrs n) (64 * k + 12 + 4 * i) 4 = addrs i % 2 ^ 32 := by
  induction n with
  | zero => omega
  | succ n ih =>
    rw [putAddrs_succ]
    by_cases heq : i = n
    · rw [heq, getLE_putLE_same]
      norm_num
    · rw [getLE_putLE_of_disjoint (by omega), ih (by omega)]

/-- A number outside the inode is unchanged. -/
theorem getLE_putDinode_of_outside {blk : Block} {k off width : Nat} {d : Dinode}
    (hout : off + width ≤ 64 * k ∨ 64 * k + 64 ≤ off) :
    getLE (putDinode blk k d) off width = getLE blk off width := by
  unfold putDinode
  simp only
  rw [getLE_putAddrs_of_outside (by simp only [ndirect]; omega), getLE_putLE_of_disjoint (by omega),
    getLE_putLE_of_disjoint (by omega), getLE_putLE_of_disjoint (by omega),
    getLE_putLE_of_disjoint (by omega), getLE_putLE_of_disjoint (by omega)]

/-- Other inodes of the block. -/
theorem getDinode_putDinode_of_ne {blk : Block} {k j : Nat} {d : Dinode} (hne : j ≠ k) :
    getDinode (putDinode blk k d) j = getDinode blk j := by
  unfold getDinode
  ext i
  · exact getLE_putDinode_of_outside (by omega)
  · exact getLE_putDinode_of_outside (by omega)
  · exact getLE_putDinode_of_outside (by omega)
  · exact getLE_putDinode_of_outside (by omega)
  · exact getLE_putDinode_of_outside (by omega)
  · simp only
    split
    next hi =>
      exact getLE_putDinode_of_outside (by simp only [ndirect] at hi; omega)
    · rfl

/-- Reading back an inode. -/
theorem getDinode_putDinode_same {blk : Block} {k : Nat} {d : Dinode} (hd : d.Fits) :
    getDinode (putDinode blk k d) k = d := by
  have hbefore : ∀ off width, off + width ≤ 64 * k + 12 →
      getLE (putDinode blk k d) off width = getLE (putLE (putLE (putLE (putLE (putLE blk
        (64 * k) 2 d.type) (64 * k + 2) 2 d.major) (64 * k + 4) 2 d.minor) (64 * k + 6) 2 d.nlink)
        (64 * k + 8) 4 d.size) off width := by
    intro off width hle
    exact getLE_putAddrs_of_outside (Or.inl hle)
  ext i
  · simp only [getDinode]
    rw [hbefore _ _ (by omega), getLE_putLE_of_disjoint (by omega),
      getLE_putLE_of_disjoint (by omega), getLE_putLE_of_disjoint (by omega),
      getLE_putLE_of_disjoint (by omega), getLE_putLE_same]
    exact Nat.mod_eq_of_lt hd.type
  · simp only [getDinode]
    rw [hbefore _ _ (by omega), getLE_putLE_of_disjoint (by omega),
      getLE_putLE_of_disjoint (by omega), getLE_putLE_of_disjoint (by omega), getLE_putLE_same]
    exact Nat.mod_eq_of_lt hd.major
  · simp only [getDinode]
    rw [hbefore _ _ (by omega), getLE_putLE_of_disjoint (by omega),
      getLE_putLE_of_disjoint (by omega), getLE_putLE_same]
    exact Nat.mod_eq_of_lt hd.minor
  · simp only [getDinode]
    rw [hbefore _ _ (by omega), getLE_putLE_of_disjoint (by omega), getLE_putLE_same]
    exact Nat.mod_eq_of_lt hd.nlink
  · simp only [getDinode]
    rw [hbefore _ _ (by omega), getLE_putLE_same]
    exact Nat.mod_eq_of_lt hd.size
  · simp only [getDinode]
    split
    next hi =>
      unfold putDinode
      simp only
      rw [getLE_putAddrs (by omega), Nat.mod_eq_of_lt (hd.addr i)]
    next hi =>
      exact (hd.outside i (by omega)).symm

/-! ## Indirect blocks -/

/-- `a[j]` of an indirect block. -/
def getEntry (blk : Block) (j : Nat) : Nat :=
  getLE blk (4 * j) 4

/-- `a[j] = addr` in an indirect block. -/
def putEntry (blk : Block) (j addr : Nat) : Block :=
  putLE blk (4 * j) 4 addr

/-- The entries of an indirect block after a write. -/
theorem getEntry_putEntry {blk : Block} {j addr : Nat} (haddr : addr < 2 ^ 32) (i : Nat) :
    getEntry (putEntry blk j addr) i = if i = j then addr else getEntry blk i := by
  unfold getEntry putEntry
  split
  next heq =>
    rw [heq, getLE_putLE_same]
    exact Nat.mod_eq_of_lt haddr
  · exact getLE_putLE_of_disjoint (by omega)

/-- A zeroed indirect block. -/
theorem getEntry_zero (j : Nat) : getEntry (fun _ => 0) j = 0 := by
  simp [getEntry, getLE]

end Xv6
