import Mathlib.Tactic.Ring

/-!
# Kernel parameters and machine integers

The constants of `param.h` and `fs.h` that the modelled code reads, and the
truncation of the C integer types.
-/

namespace Xv6

/-! ## `param.h` -/

/-- Maximum number of processes. -/
def nproc : Nat := 64

/-- Open files per process. -/
def nofile : Nat := 16

/-- Maximum number of active inodes. -/
def ninode : Nat := 50

/-- Maximum major device number. -/
def ndev : Nat := 10

/-- Largest number of blocks any file system operation writes. -/
def maxopblocks : Nat := 10

/-- Largest number of data blocks in the on-disk log. -/
def logsize : Nat := maxopblocks * 3

/-- Size of the disk block cache. -/
def nbuf : Nat := maxopblocks * 3

/-- Device number of the file system's root disk. -/
def rootdev : Nat := 1

/-! ## `fs.h` -/

/-- Block size in bytes. -/
def bsize : Nat := 1024

/-- The bytes of a disk block.  Only the first `bsize` of them are ever used. -/
abbrev Block := Nat → UInt8

/-- `struct superblock`, the fields that the kernel reads. -/
structure Superblock where
  size : Nat
  ninodes : Nat
  nlog : Nat
  logstart : Nat
  inodestart : Nat
  bmapstart : Nat

/-! ## Machine integers -/

/-- The value of a C `uint` after an operation whose mathematical result is `x`. -/
def uint (x : Nat) : Nat := x % 2 ^ 32

theorem uint_of_lt {x : Nat} (hx : x < 2 ^ 32) : uint x = x :=
  Nat.mod_eq_of_lt hx

/-- An addition of two `uint`s that does not go below its first operand has not
overflowed. -/
theorem add_lt_of_uint {a b : Nat} (ha : a < 2 ^ 32) (hb : b < 2 ^ 32)
    (hge : a ≤ uint (a + b)) : a + b < 2 ^ 32 := by
  by_contra hover
  have hmod : uint (a + b) = a + b - 2 ^ 32 := by
    unfold uint
    rw [Nat.mod_eq_sub_mod (by omega), Nat.mod_eq_of_lt (by omega)]
  omega

/-- The bits of a C `short` after an operation whose mathematical result is `x`. -/
def ushort (x : Nat) : Nat := x % 2 ^ 16

theorem uint_lt (x : Nat) : uint x < 2 ^ 32 :=
  Nat.mod_lt x (by decide)

/-- The value of a C `int` after an operation whose mathematical result is `x`. -/
def int (x : Int) : Int := x.bmod (2 ^ 32)

theorem int_of_lt {x : Int} (hneg : 0 ≤ x) (hx : x < 2 ^ 31) : int x = x :=
  Int.bmod_eq_of_le (by omega) (by omega)

end Xv6
