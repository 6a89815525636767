import Mathlib.Tactic
import Xv6.Fs.Calls

/-!
# System calls

What the system calls on open files and current directories do to the inodes and to file
structures.  Pipes and devices are left out, and so are the tables of files and descriptors: a
call that needs an entry is told whether there is one.

Main definitions:

- {lit}`sysOpen`, {lit}`sysChdir`: the calls on paths beside those that change the tree.
- {lit}`fileread`, {lit}`writeChunk`, {lit}`filestat`, {lit}`fileclose`: an inode that is open.
-/

namespace Xv6

open Lib

namespace Calls

open InodeLayer

/-- `struct file` of an inode, without the inode; `device` tells whether it is `FD_DEVICE`. -/
structure File where
  ref : Nat
  device : Bool
  readable : Bool
  writable : Bool
  off : Nat
deriving DecidableEq

section Programs

variable {σ : Type} [InodeLayer σ]

/-! ## `open` and `chdir` -/

/-- Give up the locked inode `ip`. -/
def openFail {α : Type} (ip : Nat) : Prog σ (Option α) := do
  iunlockput ip
  endOp
  return none

/-- The file structure that `sys_open` fills in. -/
def opened (omode : Nat) (device : Bool) : File :=
  ⟨1, device, omode &&& oWronly = 0, omode &&& oWronly ≠ 0 ∨ omode &&& oRdwr ≠ 0, 0⟩

/-- `sys_open` once the inode has been found or made; `room` tells whether there is a file
structure and a descriptor for it. -/
def openRest (ip omode : Nat) (room : Bool) : Prog σ (Option (Nat × File)) := do
  let a ← attr ip
  -- The `short` major is compared with 0 and NDEV.
  if a.type = tDevice ∧ a.major ≥ ndev then openFail ip
  else if room = false then openFail ip
  else
    if omode &&& oTrunc ≠ 0 ∧ a.type = tFile then itrunc ip
    iunlock ip
    endOp
    return some (ip, opened omode (a.type = tDevice))

/-- `sys_open`; the result is the new file structure and its inode. -/
def sysOpen (cwd : Nat) (path : Name) (omode : Nat) (room : Bool) :
    Prog σ (Option (Nat × File)) := do
  beginOp
  match ← openInode cwd path omode with
  | none =>
    endOp
    return none
  | some ip => openRest ip omode room

/-- `sys_chdir`; the result is the new current directory. -/
def sysChdir (cwd : Nat) (path : Name) : Prog σ (Option Nat) := do
  beginOp
  match ← namei cwd path with
  | none =>
    endOp
    return none
  | some ip =>
    ilock ip
    let a ← attr ip
    if a.type ≠ tDir then openFail ip
    else
      iunlock ip
      iput cwd
      endOp
      return some ip

/-! ## Open files -/

/-- The transaction of `exit` and `fileclose` that drops a reference. -/
def dropInode (ip : Nat) : Prog σ Unit := do
  beginOp
  iput ip
  endOp

/-- Close a file of inode `ip`; the result is the file if there are other references to it. -/
def fileclose (ip : Nat) (f : File) : Prog σ (Option File) := do
  if f.ref < 1 then throw "fileclose"
  if 0 < f.ref - 1 then return some { f with ref := f.ref - 1 }
  else
    dropInode ip
    return none

/-- `fileread` of a readable file, in its branch for `FD_INODE`; `ok` tells which bytes of
the destination can be written. -/
def fileread (ip : Nat) (f : File) (ok : Nat → Bool) (n : Nat) : Prog σ (List UInt8 × File) := do
  ilock ip
  let r ← readi ip ok f.off n
  iunlock ip
  return (r, { f with off := uint (f.off + r.length) })

/-- The most bytes that one transaction of `filewrite` writes. -/
def maxWrite : Nat := (maxopblocks - 1 - 1 - 2) / 2 * bsize

/-- One round of the loop of `filewrite`, a transaction of its own. -/
def writeChunk (ip : Nat) (f : File) (src : Source) (n1 : Nat) : Prog σ (Int × File) := do
  beginOp
  ilock ip
  let r ← writei ip src f.off n1
  iunlock ip
  endOp
  return (r, if 0 < r then { f with off := uint (f.off + r.toNat) } else f)

/-- The metadata of an inode. -/
def filestat (ip : Nat) : Prog σ Attr := do
  ilock ip
  let a ← attr ip
  iunlock ip
  return a

end Programs

end Calls
end Xv6
