import Mathlib.Tactic
import Xv6.Fs.Inode

/-!
# Directories, paths and system calls

The upper half of the file system uses inodes only through a few operations.  It is
written over that interface, so that a reader sees which operations a call makes; the
inode layer is its instance.

Main definitions:

- {lit}`InodeLayer`: the operations on inodes.
- {lit}`dirlookup`, {lit}`dirlink`, {lit}`namex`: directories and paths.
- {lit}`create`, {lit}`sysLink`, {lit}`sysUnlink`: the system calls that change the tree.
-/

namespace Xv6

open Lib

/-- The fields of an inode other than its block addresses. -/
@[ext]
structure Attr where
  type : Nat
  major : Nat
  minor : Nat
  nlink : Nat
  size : Nat

/-- What directories and system calls need of inodes.  `attr` reads the fields of
a locked inode, and `setAttr` sets `major`, `minor` and `nlink` and copies the
inode to disk. -/
class InodeLayer (σ : Type) where
  beginOp : Prog σ Unit
  endOp : Prog σ Unit
  iget : Nat → Prog σ Unit
  idup : Nat → Prog σ Unit
  ilock : Nat → Prog σ Unit
  iunlock : Nat → Prog σ Unit
  iput : Nat → Prog σ Unit
  ialloc : Nat → Prog σ Nat
  itrunc : Nat → Prog σ Unit
  attr : Nat → Prog σ Attr
  setAttr : Nat → Nat → Nat → Nat → Prog σ Unit
  readi : Nat → (Nat → Bool) → Nat → Nat → Prog σ (List UInt8)
  writei : Nat → Source → Nat → Nat → Prog σ Int

namespace Fs

/-! ## The inode layer -/

def attr (n : Nat) : Prog Fs Attr := do
  let ip ← lockedInode n
  return ⟨ip.din.type, ip.din.major, ip.din.minor, ip.din.nlink, ip.din.size⟩

def setAttr (n major minor nlink : Nat) : Prog Fs Unit := do
  let _ ← lockedInode n
  modifyDinode n fun d => { d with major := major, minor := minor, nlink := nlink }
  iupdate n

/-- The inode layer with its blocks. -/
instance : InodeLayer Fs where
  beginOp := beginOp
  endOp := endOp
  iget := iget
  idup := idup
  ilock := ilock
  iunlock := iunlock
  iput := iput
  ialloc := ialloc
  itrunc := itrunc
  attr := attr
  setAttr := setAttr
  readi := readi
  writei := writei

end Fs

namespace Calls

open InodeLayer

/-! ## Names -/

/-- A file name or path: the bytes before the terminating zero. -/
abbrev Name := List UInt8

/-- `strncmp`; a string ends with a zero. -/
def strncmp : List UInt8 → List UInt8 → Nat → Int
  | _, _, 0 => 0
  | p, q, n + 1 =>
    if p.headD 0 ≠ 0 ∧ p.headD 0 = q.headD 0 then strncmp p.tail q.tail n
    else (p.headD 0).toNat - (q.headD 0).toNat

/-- `strncpy`: the bytes of the string, padded with zeros. -/
def strncpy : List UInt8 → Nat → List UInt8
  | _, 0 => []
  | t, n + 1 =>
    if t.headD 0 ≠ 0 then t.headD 0 :: strncpy t.tail n else List.replicate (n + 1) 0

def namecmp (s t : List UInt8) : Int :=
  strncmp s t dirsiz

def dot : Name := [46]

def dotdot : Name := [46, 46]

/-- A `struct dirent`: the inode number and the padded name. -/
def encodeDirent (name : Name) (inum : Nat) : List UInt8 :=
  [.ofNat inum, .ofNat (inum / 256)] ++ strncpy name dirsiz

def direntInum (bytes : List UInt8) : Nat :=
  (bytes.getD 0 0).toNat + 256 * (bytes.getD 1 0).toNat

def direntName (bytes : List UInt8) : List UInt8 :=
  bytes.drop 2

/-- A kernel buffer as the source of a write. -/
def kernelSource (bytes : List UInt8) : Source := fun i => some (bytes.getD i 0)

/-- Copy the next path element into a name and return the rest of the path. -/
def skipelem (path : Name) : Option (Name × Name) :=
  let path := path.dropWhile (· = 47)
  if path = [] then none
  else
    let s := path.takeWhile (· ≠ 47)
    some (s.take dirsiz, (path.dropWhile (· ≠ 47)).dropWhile (· = 47))

/-! ## Open modes -/

def oWronly : Nat := 0x001

def oRdwr : Nat := 0x002

def oCreate : Nat := 0x200

def oTrunc : Nat := 0x400

section Programs

variable {σ : Type} [InodeLayer σ]

/-! ## Directories -/

def iunlockput (n : Nat) : Prog σ Unit := do
  iunlock n
  iput n

/-- Read the directory entry at an offset. -/
def readDirent (dp off : Nat) (message : String) : Prog σ (List UInt8) := do
  let de ← readi dp (fun _ => true) off direntSize
  if de.length ≠ direntSize then throw message else return de

/-- The loop of `dirlookup`: the offset and inode number of the entry. -/
def lookupLoop (dp : Nat) (name : Name) (size : Nat) :
    (fuel off : Nat) → Prog σ (Option (Nat × Nat))
  | 0, _ => pure none
  | fuel + 1, off =>
    if off < size then do
      let de ← readDirent dp off "dirlookup read"
      if direntInum de ≠ 0 ∧ namecmp name (direntName de) = 0 then
        return some (off, direntInum de)
      else lookupLoop dp name size fuel (off + direntSize)
    else pure none

/-- Look for a directory entry in a directory; the inode found is referenced. -/
def dirlookup (dp : Nat) (name : Name) : Prog σ (Option (Nat × Nat)) := do
  let a ← attr dp
  if a.type ≠ tDir then throw "dirlookup not DIR"
  let found ← lookupLoop dp name a.size a.size 0
  match found with
  | none => return none
  | some (off, inum) =>
    iget inum
    return some (off, inum)

/-- The loop of `dirlink` that looks for an empty entry. -/
def emptyLoop (dp : Nat) (size : Nat) : (fuel off : Nat) → Prog σ Nat
  | 0, off => pure off
  | fuel + 1, off =>
    if off < size then do
      let de ← readDirent dp off "dirlink read"
      if direntInum de = 0 then return off
      else emptyLoop dp size fuel (off + direntSize)
    else pure off

/-- Write a new directory entry (name, inum) into the directory dp; `false` if the
name is present. -/
def dirlink (dp : Nat) (name : Name) (inum : Nat) : Prog σ Bool := do
  match ← dirlookup dp name with
  | some (_, n) =>
    iput n
    return false
  | none =>
    let a ← attr dp
    let off ← emptyLoop dp a.size a.size 0
    let r ← writei dp (kernelSource (encodeDirent name inum)) off direntSize
    if r ≠ direntSize then throw "dirlink"
    return true

/-- The loop of `isdirempty`. -/
def isdiremptyLoop (dp : Nat) (size : Nat) : (fuel off : Nat) → Prog σ Bool
  | 0, _ => pure true
  | fuel + 1, off =>
    if off < size then do
      let de ← readDirent dp off "isdirempty: readi"
      if direntInum de ≠ 0 then return false
      else isdiremptyLoop dp size fuel (off + direntSize)
    else pure true

/-- Is the directory dp empty except for "." and ".." ? -/
def isdirempty (dp : Nat) : Prog σ Bool := do
  let a ← attr dp
  isdiremptyLoop dp a.size a.size (2 * direntSize)

/-! ## Paths -/

/-- The loop of `namex` from inode `ip` on; the result is the inode found and the
last path element. -/
def namexLoop (parent : Bool) : (fuel : Nat) → Name → Nat → Name → Prog σ (Option (Nat × Name))
  | 0, _, _, _ => throw "namex: path too long"
  | fuel + 1, path, ip, name =>
    match skipelem path with
    | none =>
      if parent then do
        iput ip
        return none
      else return some (ip, name)
    | some (name, rest) => do
      ilock ip
      let a ← attr ip
      if a.type ≠ tDir then
        iunlockput ip
        return none
      if parent ∧ rest = [] then
        iunlock ip
        return some (ip, name)
      match ← dirlookup ip name with
      | none =>
        iunlockput ip
        return none
      | some (_, next) =>
        iunlockput ip
        namexLoop parent fuel rest next name

/-- Look up the inode for a path name, or that of its parent together with the
final path element. -/
def namex (cwd : Nat) (path : Name) (parent : Bool) : Prog σ (Option (Nat × Name)) :=
  if path.head? = some 47 then do
    iget rootino
    namexLoop parent (path.length + 1) path rootino []
  else do
    idup cwd
    namexLoop parent (path.length + 1) path cwd []

def namei (cwd : Nat) (path : Name) : Prog σ (Option Nat) := do
  return (← namex cwd path false).map (·.1)

def nameiparent (cwd : Nat) (path : Name) : Prog σ (Option (Nat × Name)) :=
  namex cwd path true

/-! ## Changing the tree -/

/-- The entries "." and ".." of a new directory. -/
def createDots (dp ip : Nat) : Prog σ Unit := do
  let d ← attr dp
  setAttr dp d.major d.minor (ushort (d.nlink + 1))
  let ok ← dirlink ip dot ip
  if ok = false then throw "create dots"
  let ok ← dirlink ip dotdot dp
  if ok = false then throw "create dots"

/-- The new inode of `create`, locked and with one link. -/
def newInode (type major minor : Nat) : Prog σ Nat := do
  let ip ← ialloc type
  ilock ip
  setAttr ip major minor 1
  return ip

/-- The end of `create`: the entry of the new inode. -/
def createEntry (dp : Nat) (name : Name) (ip : Nat) : Prog σ Nat := do
  let ok ← dirlink dp name ip
  if ok = false then throw "create: dirlink"
  iunlockput dp
  return ip

/-- `create` in the locked directory `dp`, which has no entry `name`. -/
def createIn (dp : Nat) (name : Name) (type major minor : Nat) : Prog σ Nat := do
  let ip ← newInode type major minor
  if type = tDir then createDots dp ip
  createEntry dp name ip

/-- `create`; the inode returned is locked. -/
def create (cwd : Nat) (path : Name) (type major minor : Nat) : Prog σ (Option Nat) := do
  match ← nameiparent cwd path with
  | none => return none
  | some (dp, name) =>
    ilock dp
    match ← dirlookup dp name with
    | some (_, ip) =>
      iunlockput dp
      ilock ip
      let a ← attr ip
      if type = tFile ∧ (a.type = tFile ∨ a.type = tDevice) then return some ip
      iunlockput ip
      return none
    | none => return some (← createIn dp name type major minor)

/-- The error exit of `sys_link`. -/
def linkBad (ip : Nat) : Prog σ Int := do
  ilock ip
  let a ← attr ip
  setAttr ip a.major a.minor (ushort (a.nlink + (2 ^ 16 - 1)))
  iunlockput ip
  endOp
  return -1

/-- The part of `sys_link` that enters inode `ip` under the path `new`. -/
def linkNew (cwd ip : Nat) (new : Name) : Prog σ Int := do
  match ← nameiparent cwd new with
  | none => linkBad ip
  | some (dp, name) =>
    ilock dp
    let ok ← dirlink dp name ip
    iunlockput dp
    if ok = false then linkBad ip
    else
      iput ip
      endOp
      return 0

/-- Create the path `new` as a link to the same inode as `old`. -/
def sysLink (cwd : Nat) (old new : Name) : Prog σ Int := do
  beginOp
  match ← namei cwd old with
  | none =>
    endOp
    return -1
  | some ip =>
    ilock ip
    let a ← attr ip
    if a.type = tDir then
      iunlockput ip
      endOp
      return -1
    setAttr ip a.major a.minor (ushort (a.nlink + 1))
    iunlock ip
    linkNew cwd ip new

/-- The error exit of `sys_unlink`. -/
def unlinkBad (dp : Nat) : Prog σ Int := do
  iunlockput dp
  endOp
  return -1

/-- The end of `sys_unlink`: the inode `ip` loses a link. -/
def unlinkDrop (dp ip : Nat) : Prog σ Int := do
  iunlockput dp
  let a ← attr ip
  setAttr ip a.major a.minor (ushort (a.nlink + (2 ^ 16 - 1)))
  iunlockput ip
  endOp
  return 0

/-- The part of `sys_unlink` that removes the entry at `off` of `dp`, which names
the locked inode `ip`. -/
def unlinkEntry (dp ip off : Nat) (a : Attr) : Prog σ Int := do
  let r ← writei dp (kernelSource (List.replicate direntSize 0)) off direntSize
  if r ≠ direntSize then throw "unlink: writei"
  if a.type = tDir then
    let d ← attr dp
    setAttr dp d.major d.minor (ushort (d.nlink + (2 ^ 16 - 1)))
  unlinkDrop dp ip

/-- `ip->nlink < 1` for the `short` nlink. -/
def belowOne (nlink : Nat) : Prop := nlink = 0 ∨ 2 ^ 15 ≤ nlink

/-- The test is decidable. -/
instance (nlink : Nat) : Decidable (belowOne nlink) :=
  inferInstanceAs (Decidable (_ ∨ _))

/-- `ip->type == T_DIR && !isdirempty(ip)`. -/
def usedDir (ip : Nat) (a : Attr) : Prog σ Bool :=
  if a.type = tDir then do
    let empty ← isdirempty ip
    return !empty
  else return false

/-- The part of `sys_unlink` that has found the entry of `ip` at `off` of the locked
directory `dp`. -/
def unlinkFound (dp ip off : Nat) : Prog σ Int := do
  ilock ip
  let a ← attr ip
  if belowOne a.nlink then throw "unlink: nlink < 1"
  let used ← usedDir ip a
  if used = true then
    iunlockput ip
    unlinkBad dp
  else unlinkEntry dp ip off a

def sysUnlink (cwd : Nat) (path : Name) : Prog σ Int := do
  beginOp
  match ← nameiparent cwd path with
  | none =>
    endOp
    return -1
  | some (dp, name) =>
    ilock dp
    if namecmp name dot = 0 ∨ namecmp name dotdot = 0 then unlinkBad dp
    else
      match ← dirlookup dp name with
      | none => unlinkBad dp
      | some (off, ip) => unlinkFound dp ip off

/-- `sys_mkdir` and `sys_mknod`. -/
def makeNode (cwd : Nat) (path : Name) (type major minor : Nat) : Prog σ Int := do
  beginOp
  match ← create cwd path type major minor with
  | none =>
    endOp
    return -1
  | some ip =>
    iunlockput ip
    endOp
    return 0

/-! ## Opening files -/

/-- The inode that `open` opens, locked. -/
def openInode (cwd : Nat) (path : Name) (omode : Nat) : Prog σ (Option Nat) := do
  if omode &&& oCreate ≠ 0 then create cwd path tFile 0 0
  else
    match ← namei cwd path with
    | none => return none
    | some ip =>
      ilock ip
      let a ← attr ip
      if a.type = tDir ∧ omode ≠ 0 then
        iunlockput ip
        return none
      return some ip

end Programs

end Calls
end Xv6
