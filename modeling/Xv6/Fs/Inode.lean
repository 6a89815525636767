import Mathlib.Tactic
import Xv6.Fs.Layout
import Xv6.Lib.Prog

/-!
# Blocks and inodes

The block allocator, the inode cache and the contents of inodes, run by one
process at a time.  The state holds the contents of every block as the buffer
cache shows them.

Main definitions:

- {lit}`balloc`, {lit}`bfree`: the free bitmap.
- {lit}`ialloc`, {lit}`iget`, {lit}`ilock`, {lit}`iput`: the inode cache.
- {lit}`bmap`, {lit}`itrunc`, {lit}`readi`, {lit}`writei`: the contents of an inode.
-/

namespace Xv6

open Lib Function

/-! ## State -/

/-- `struct inode`; `din` is the copy of the disk inode. -/
structure Inode where
  ref : Int
  locked : Bool
  valid : Bool
  din : Dinode

/-- The file system in memory and on disk.  The inode cache is indexed by inode
number, and `active` counts its entries that have references; `outstanding` is
that of the log, and `logged` lists the blocks passed to `log_write` since the
last `begin_op`. -/
structure Fs where
  sb : Superblock
  disk : Nat → Block
  icache : Nat → Inode
  active : Nat
  outstanding : Nat
  logged : List Nat

/-- The source of a write: the byte at each offset, or nothing where a user
address is not mapped. -/
abbrev Source := Nat → Option UInt8

namespace Fs

/-- In-place change of a buffer. -/
def setData (b : Nat) (blk : Block) : Prog Fs Unit :=
  modify fun fs => { fs with disk := update fs.disk b blk }

def bread (b : Nat) : Prog Fs Block := do
  return (← get).disk b

/-- `log_write`; the space in the log is not part of this state. -/
def logWrite (b : Nat) : Prog Fs Unit := do
  if (← get).outstanding < 1 then throw "log_write outside of trans"
  modify fun fs => { fs with logged := fs.logged ++ [b] }

def beginOp : Prog Fs Unit :=
  modify fun fs => { fs with outstanding := fs.outstanding + 1, logged := [] }

def endOp : Prog Fs Unit :=
  modify fun fs => { fs with outstanding := fs.outstanding - 1 }

/-! ## Blocks -/

/-- Zero a block. -/
def bzero (b : Nat) : Prog Fs Unit := do
  setData b fun _ => 0
  logWrite b

/-- Allocate a zeroed disk block: the first one whose bit is clear. -/
def balloc : Prog Fs Nat := do
  let fs ← get
  match (List.range fs.sb.size).find? fun b => !bitAt (fs.disk (bblock fs.sb b)) (b % bpb) with
  | none => throw "balloc: out of blocks"
  | some b =>
    setData (bblock fs.sb b) (setBit (fs.disk (bblock fs.sb b)) (b % bpb))
    logWrite (bblock fs.sb b)
    bzero b
    return b

/-- Free a disk block. -/
def bfree (b : Nat) : Prog Fs Unit := do
  let fs ← get
  let blk ← bread (bblock fs.sb b)
  if bitAt blk (b % bpb) then
    setData (bblock fs.sb b) (clearBit blk (b % bpb))
    logWrite (bblock fs.sb b)
  else
    throw "freeing free block"

/-! ## Inodes -/

def setInode (n : Nat) (ip : Inode) : Prog Fs Unit :=
  modify fun fs => { fs with icache := update fs.icache n ip }

def getInode (n : Nat) : Prog Fs Inode := do
  return (← get).icache n

/-- The cached copy of an inode, whose lock the caller has to hold. -/
def lockedInode (n : Nat) : Prog Fs Inode := do
  let ip ← getInode n
  if ip.locked then return ip else throw "inode not locked"

/-- The inode as it stands on disk. -/
def dinode (fs : Fs) (n : Nat) : Dinode :=
  getDinode (fs.disk (iblock fs.sb n)) (n % ipb)

/-- Store an inode in its block. -/
def putInode (n : Nat) (d : Dinode) : Prog Fs Unit := do
  let fs ← get
  let blk ← bread (iblock fs.sb n)
  setData (iblock fs.sb n) (putDinode blk (n % ipb) d)
  logWrite (iblock fs.sb n)

/-- Copy a modified in-memory inode to disk. -/
def iupdate (n : Nat) : Prog Fs Unit := do
  putInode n (← getInode n).din

/-- Find the inode with number `n` in the cache, or take a free entry. -/
def iget (n : Nat) : Prog Fs Unit := do
  let fs ← get
  let ip := fs.icache n
  if ip.ref > 0 then setInode n { ip with ref := ip.ref + 1 }
  else if fs.active ≥ ninode then throw "iget: no inodes"
  else
    setInode n { ip with ref := 1, valid := false }
    modify fun fs => { fs with active := fs.active + 1 }

def idup (n : Nat) : Prog Fs Unit := do
  let ip ← getInode n
  setInode n { ip with ref := ip.ref + 1 }

/-- Allocate an inode: the first one whose type is zero. -/
def ialloc (type : Nat) : Prog Fs Nat := do
  let fs ← get
  match (List.range' 1 (fs.sb.ninodes - 1)).find? fun n => (fs.dinode n).type = 0 with
  | none => throw "ialloc: no inodes"
  | some n =>
    putInode n ⟨type, 0, 0, 0, 0, fun _ => 0⟩
    iget n
    return n

/-- Lock an inode, reading it from disk if necessary.  A process that locks an
inode twice waits forever. -/
def ilock (n : Nat) : Prog Fs Unit := do
  let fs ← get
  let ip := fs.icache n
  if ip.ref < 1 then throw "ilock"
  else if ip.locked then throw "acquiresleep: deadlock"
  else if ip.valid then setInode n { ip with locked := true }
  else
    setInode n { ip with locked := true, valid := true, din := fs.dinode n }
    if (fs.dinode n).type = 0 then throw "ilock: no type"

def iunlock (n : Nat) : Prog Fs Unit := do
  let ip ← getInode n
  if ip.locked = false ∨ ip.ref < 1 then throw "iunlock"
  else setInode n { ip with locked := false }

/-! ## Contents -/

/-- Change the cached copy of an inode. -/
def modifyDinode (n : Nat) (f : Dinode → Dinode) : Prog Fs Unit := do
  let ip ← getInode n
  setInode n { ip with din := f ip.din }

def setAddr (n i addr : Nat) : Prog Fs Unit :=
  modifyDinode n fun d => { d with addrs := update d.addrs i addr }

/-- `addrs[i]`, allocated if it is zero. -/
def directBlock (n i : Nat) : Prog Fs Nat := do
  let ip ← getInode n
  if ip.din.addrs i = 0 then
    let addr ← balloc
    setAddr n i addr
    return addr
  else return ip.din.addrs i

/-- The disk block address of the `bn`-th block of an inode; if there is no such
block, one is allocated. -/
def bmap (n bn : Nat) : Prog Fs Nat := do
  if bn < ndirect then directBlock n bn
  else if bn - ndirect < nindirect then
    let ind ← directBlock n ndirect
    let blk ← bread ind
    if getEntry blk (bn - ndirect) = 0 then
      let addr ← balloc
      -- `balloc` may not change the indirect block, which is in use.
      let blk ← bread ind
      setData ind (putEntry blk (bn - ndirect) addr)
      logWrite ind
      return addr
    else return getEntry blk (bn - ndirect)
  else throw "bmap: out of range"

/-- The body of the first loop of `itrunc`. -/
def truncDirect (n i : Nat) : Prog Fs Unit := do
  let ip ← getInode n
  if ip.din.addrs i ≠ 0 then
    bfree (ip.din.addrs i)
    setAddr n i 0

/-- The body of the second loop of `itrunc`. -/
def truncEntry (a : Block) (j : Nat) : Prog Fs Unit := do
  if getEntry a j ≠ 0 then bfree (getEntry a j)

/-- The indirect block in `itrunc`. -/
def truncIndirect (n : Nat) : Prog Fs Unit := do
  let ip ← getInode n
  if ip.din.addrs ndirect ≠ 0 then
    let a ← bread (ip.din.addrs ndirect)
    forUpto (truncEntry a) nindirect
    bfree (ip.din.addrs ndirect)
    setAddr n ndirect 0

/-- The part of `itrunc` before the inode is written. -/
def truncBlocks (n : Nat) : Prog Fs Unit := do
  forUpto (truncDirect n) ndirect
  truncIndirect n
  modifyDinode n fun d => { d with size := 0 }

/-- Discard the contents of a locked inode. -/
def itrunc (n : Nat) : Prog Fs Unit := do
  let _ ← lockedInode n
  truncBlocks n
  iupdate n

/-- The part of `iput` that frees an inode without links. -/
def ifree (n : Nat) : Prog Fs Unit := do
  let ip ← getInode n
  if ip.locked then throw "acquiresleep: deadlock"
  setInode n { ip with locked := true }
  itrunc n
  modifyDinode n fun d => { d with type := 0 }
  iupdate n
  let ip ← getInode n
  setInode n { ip with valid := false, locked := false }

/-- `ip->ref--`. -/
def dropRef (n : Nat) : Prog Fs Unit := do
  let ip ← getInode n
  setInode n { ip with ref := ip.ref - 1 }
  if ip.ref = 1 then modify fun fs => { fs with active := fs.active - 1 }

/-- Drop a reference; without references and links the inode is freed. -/
def iput (n : Nat) : Prog Fs Unit := do
  let ip ← getInode n
  if ip.ref = 1 ∧ ip.valid ∧ ip.din.nlink = 0 then ifree n
  dropRef n

/-- The number of bytes that one round of a copy loop moves. -/
def chunk (off left : Nat) : Nat :=
  min left (bsize - off % bsize)

/-- The loop of `readi`, with the bytes copied so far.  `ok i` tells whether the
`i`-th byte of the destination can be written. -/
def readLoop (n : Nat) (ok : Nat → Bool) : (fuel off left : Nat) → List UInt8 →
    Prog Fs (List UInt8)
  | 0, _, _, acc => pure acc
  | fuel + 1, off, left, acc =>
    if left = 0 then pure acc
    else do
      let blk ← bread (← bmap n (off / bsize))
      let m := chunk off left
      if (List.range m).all fun i => ok (acc.length + i) then
        readLoop n ok fuel (off + m) (left - m)
          (acc ++ (List.range m).map fun i => blk (off % bsize + i))
      else pure acc

/-- `readi`: the bytes copied to the destination. -/
def readi (n : Nat) (ok : Nat → Bool) (off len : Nat) : Prog Fs (List UInt8) := do
  let ip ← lockedInode n
  if off > ip.din.size ∨ uint (off + len) < off then return []
  else
    let len := if uint (off + len) > ip.din.size then ip.din.size - off else len
    readLoop n ok len off len []

/-- Number of leading mapped bytes of the next `m` bytes at `pos`. -/
def mapped (src : Source) (pos : Nat) : Nat → Nat
  | 0 => 0
  | m + 1 => if src pos = none then 0 else mapped src (pos + 1) m + 1

/-- Copy `k` bytes of the source to offset `o` of a block. -/
def copyTo (blk : Block) (o : Nat) (src : Source) (pos k : Nat) : Block := fun i =>
  if o ≤ i ∧ i < o + k then (src (pos + (i - o))).getD 0 else blk i

/-- The loop of `writei`.  The result is the offset it has reached.  A copy that
meets an unmapped address has changed the buffer up to there. -/
def writeLoop (n : Nat) (src : Source) : (fuel tot off left : Nat) → Prog Fs Nat
  | 0, _, off, _ => pure off
  | fuel + 1, tot, off, left =>
    if left = 0 then pure off
    else do
      let b ← bmap n (off / bsize)
      let blk ← bread b
      let m := chunk off left
      let k := mapped src tot m
      setData b (copyTo blk (off % bsize) src tot k)
      if k < m then pure off
      else
        logWrite b
        writeLoop n src fuel (tot + m) (off + m) (left - m)

/-- `writei`; the result is -1 or the number of bytes asked for. -/
def writei (n : Nat) (src : Source) (off len : Nat) : Prog Fs Int := do
  let ip ← lockedInode n
  if off > ip.din.size ∨ uint (off + len) < off then return -1
  else if uint (off + len) > maxfile * bsize then return -1
  else
    let off ← writeLoop n src len 0 off len
    if len > 0 then
      modifyDinode n fun d => if off > d.size then { d with size := off } else d
      iupdate n
    return len

/-! ## Rules for the primitives -/

section Rules

variable {fs : Fs} {n b : Nat} {E : String → Fs → Prop}

/-- Writing a buffer. -/
@[simp]
theorem wp_setData {blk : Block} {Q : Unit → Fs → Prop} : Wp (setData b blk) fs Q E ↔
    Q () { fs with disk := update fs.disk b blk } :=
  wp_modify

/-- Reading a block. -/
@[simp]
theorem wp_bread {Q : Block → Fs → Prop} : Wp (bread b) fs Q E ↔ Q (fs.disk b) fs := by
  simp only [bread, wp_bind, wp_get, wp_pure]

/-- `log_write` in a transaction. -/
theorem wp_logWrite {Q : Unit → Fs → Prop} (hop : 0 < fs.outstanding) :
    Wp (logWrite b) fs Q E ↔ Q () { fs with logged := fs.logged ++ [b] } := by
  have hnot : ¬fs.outstanding < 1 := by omega
  simp only [logWrite, wp_bind, wp_get, if_neg hnot, wp_modify]

/-- `begin_op`. -/
@[simp]
theorem wp_beginOp {Q : Unit → Fs → Prop} : Wp beginOp fs Q E ↔
    Q () { fs with outstanding := fs.outstanding + 1, logged := [] } :=
  wp_modify

/-- `end_op`. -/
@[simp]
theorem wp_endOp {Q : Unit → Fs → Prop} : Wp endOp fs Q E ↔
    Q () { fs with outstanding := fs.outstanding - 1 } :=
  wp_modify

/-- Writing an entry of the cache. -/
@[simp]
theorem wp_setInode {ip : Inode} {Q : Unit → Fs → Prop} : Wp (setInode n ip) fs Q E ↔
    Q () { fs with icache := update fs.icache n ip } :=
  wp_modify

/-- Reading an entry of the cache. -/
@[simp]
theorem wp_getInode {Q : Inode → Fs → Prop} : Wp (getInode n) fs Q E ↔ Q (fs.icache n) fs := by
  simp only [getInode, wp_bind, wp_get, wp_pure]

/-- Reading the entry of a locked inode. -/
theorem wp_lockedInode {Q : Inode → Fs → Prop} (hlocked : (fs.icache n).locked = true) :
    Wp (lockedInode n) fs Q E ↔ Q (fs.icache n) fs := by
  simp only [lockedInode, wp_bind, wp_getInode, if_pos hlocked, wp_pure]

/-- Changing the cached copy. -/
@[simp]
theorem wp_modifyDinode {f : Dinode → Dinode} {Q : Unit → Fs → Prop} :
    Wp (modifyDinode n f) fs Q E ↔ Q () { fs with
      icache := update fs.icache n ({ fs.icache n with din := f (fs.icache n).din }) } := by
  simp only [modifyDinode, wp_bind, wp_getInode, wp_setInode]

/-- Setting an address. -/
@[simp]
theorem wp_setAddr {i addr : Nat} {Q : Unit → Fs → Prop} :
    Wp (setAddr n i addr) fs Q E ↔ Q () { fs with
      icache := update fs.icache n ({ fs.icache n with din := { (fs.icache n).din with
        addrs := update (fs.icache n).din.addrs i addr } }) } :=
  wp_modifyDinode

/-- The blocks after an inode has been stored. -/
def putDisk (sb : Superblock) (disk : Nat → Block) (n : Nat) (d : Dinode) : Nat → Block :=
  update disk (iblock sb n) (putDinode (disk (iblock sb n)) (n % ipb) d)

/-- Writing an inode to its block. -/
theorem wp_putInode {d : Dinode} {Q : Unit → Fs → Prop} (hop : 0 < fs.outstanding) :
    Wp (putInode n d) fs Q E ↔ Q () { fs with
      disk := putDisk fs.sb fs.disk n d, logged := fs.logged ++ [iblock fs.sb n] } := by
  simp only [putInode, wp_bind, wp_get, wp_bread, wp_setData]
  rw [wp_logWrite (by exact hop)]
  rfl

/-- `iupdate`. -/
theorem wp_iupdate {Q : Unit → Fs → Prop} (hop : 0 < fs.outstanding) :
    Wp (iupdate n) fs Q E ↔ Q () { fs with
      disk := putDisk fs.sb fs.disk n (fs.icache n).din
      logged := fs.logged ++ [iblock fs.sb n] } := by
  simp only [iupdate, wp_bind, wp_getInode]
  exact wp_putInode hop

/-- `bzero`. -/
theorem wp_bzero {Q : Unit → Fs → Prop} (hop : 0 < fs.outstanding) :
    Wp (bzero b) fs Q E ↔ Q () { fs with
      disk := update fs.disk b fun _ => 0, logged := fs.logged ++ [b] } := by
  simp only [bzero, wp_bind, wp_setData]
  exact wp_logWrite hop

end Rules

end Fs
end Xv6
