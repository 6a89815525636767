import Mathlib.Tactic
import Xv6.Fs.Path

/-!
# Disk images

The file system as it stands on a disk image whose root is the current directory of a
process, and a small image that is laid out as `mkfs` lays out its own.

Main definitions:

- {lit}`DiskImage`: a well-formed image.
- {lit}`Fs.mounted`: the file system with a reference to its root.

Main results:

- Theorem {lit}`Fs.ok_mounted`: the invariant of the inode layer holds.
- Theorem {lit}`Tiny.image_tinyDisk`: an image with an empty root directory is well formed.
-/

namespace Xv6

open Lib Function

/-- A well-formed image: block ownership is exact and files have no holes, directories are
made of whole entries for inode numbers and have no name twice, the root is a directory, and
every inode in use has a link. -/
structure DiskImage (sb : Superblock) (disk : Nat → Block) : Prop where
  core : Core sb disk (dinodes sb disk)
  dirs : Dirs (Fs.nodeOf sb disk) sb.ninodes
  distinct : ∀ d, (Fs.nodeOf sb disk d).attr.type = tDir → (Fs.nodeOf sb disk d).dir.Distinct
  root : (Fs.nodeOf sb disk rootino).attr.type = tDir
  linked : ∀ n, Allocated sb (dinodes sb disk) n → (dinodes sb disk n).nlink ≠ 0

namespace Fs

/-- An entry of the inode cache with `ref` references that has not been read from disk. -/
def unread (ref : Int) : Inode := ⟨ref, false, false, fresh 0⟩

/-- The file system with one reference to its root, during `ops` calls. -/
def mounted (sb : Superblock) (disk : Nat → Block) (ops : Nat) : Fs where
  sb := sb
  disk := disk
  icache := fun n => unread (if n = rootino then 1 else 0)
  active := 1
  outstanding := ops
  logged := []

/-- The invariant holds of a mounted image. -/
theorem ok_mounted {sb : Superblock} {disk : Nat → Block} (h : DiskImage sb disk) (ops : Nat) :
    Ok (mounted sb disk ops) where
  core := h.core
  ref_nonneg n := by
    change 0 ≤ if n = rootino then (1 : Int) else 0
    split <;> omega
  coherent _ _ hvalid := nomatch hvalid
  held _ hlocked := nomatch hlocked
  orphan n hn hzero := absurd hzero (h.linked n hn)
  counted := by
    refine ⟨{rootino}, rfl, fun n => ?_⟩
    change n ∈ {rootino} ↔ 0 < if n = rootino then (1 : Int) else 0
    by_cases hn : n = rootino <;> simp [hn]

end Fs

/-! ## A small image -/

namespace Tiny

open Calls

/-- Size of the file system in blocks. -/
def fssize : Nat := 1000

/-- One inode beside that of the root can be allocated. -/
def ninodes : Nat := 3

/-- Blocks of the bitmap. -/
def nbitmap : Nat := fssize / (bsize * 8) + 1

/-- Blocks of inodes. -/
def ninodeblocks : Nat := ninodes / ipb + 1

/-- Blocks of the log. -/
def nlog : Nat := logsize

/-- Number of meta blocks (boot, sb, nlog, inode, bitmap). -/
def nmeta : Nat := 2 + nlog + ninodeblocks + nbitmap

/-- The superblock, laid out as by `mkfs`. -/
def sb : Superblock where
  size := fssize
  ninodes := ninodes
  nlog := nlog
  logstart := 2
  inodestart := 2 + nlog
  bmapstart := 2 + nlog + ninodeblocks

/-- A block whose first `used` bits are set. -/
def firstBits (used : Nat) : Block :=
  (List.range used).foldl setBit fun _ => 0

/-- The superblock is well formed. -/
theorem wf_sb : sb.Wf := by
  constructor <;> decide

/-- Where the data blocks begin. -/
theorem nmeta_sb : sb.nmeta = nmeta := by decide

/-- One more bit. -/
theorem firstBits_succ (k : Nat) : firstBits (k + 1) = setBit (firstBits k) k := by
  simp [firstBits, List.range_succ]

/-- The bits that are set. -/
theorem bitAt_firstBits (k bi : Nat) : bitAt (firstBits k) bi = decide (bi < k) := by
  induction k with
  | zero => simp [firstBits, bitAt]
  | succ k ih =>
    rw [firstBits_succ, bitAt_setBit, ih]
    by_cases heq : bi = k
    · simp [heq]
    · by_cases hlt : bi < k
      · simp [hlt, Nat.lt_succ_of_lt hlt]
      · have hge : ¬bi < k + 1 := by omega
        simp [heq, hlt, hge]

/-- There is one block of the bitmap. -/
theorem bblock_sb {b : Nat} (hb : b < fssize) : bblock sb b = sb.bmapstart := by
  have hdiv : b / bpb = 0 := Nat.div_eq_of_lt (hb.trans (by decide))
  rw [bblock, hdiv, Nat.zero_add]

/-- The place of a block in the bitmap. -/
theorem mod_bpb {b : Nat} (hb : b < fssize) : b % bpb = b :=
  Nat.mod_eq_of_lt (hb.trans (by decide))

/-- No files and no blocks in use. -/
def blankDisk : Nat → Block :=
  update (fun _ _ => 0) sb.bmapstart (firstBits nmeta)

/-- The entries of the root directory. -/
def entries : List (Name × Nat) := [(dot, rootino), (dotdot, rootino)]

/-- The contents of the root directory. -/
def rootBytes : List UInt8 := entries.flatMap fun e => encodeDirent e.1 e.2

/-- The inode of the root directory, which has one block. -/
def rootInode : Dinode := ⟨tDir, 0, 0, 1, direntSize * 2, update (fun _ => 0) 0 nmeta⟩

/-- The block of the root directory has been allocated and written. -/
def rootDisk : Nat → Block :=
  update (allocDisk sb blankDisk nmeta) nmeta fun i => rootBytes.getD i 0

/-- An image with an empty root directory. -/
def tinyDisk : Nat → Block := Fs.putDisk sb rootDisk rootino rootInode

/-- The inodes of the image. -/
def table : Nat → Dinode := update (fun _ => Fs.fresh 0) rootino rootInode

/-- Zeroed blocks have no inodes. -/
theorem dinodes_zero {disk : Nat → Block} (hzero : ∀ b < sb.bmapstart, disk b = fun _ => 0) :
    dinodes sb disk = fun _ => Fs.fresh 0 := by
  funext n
  unfold dinodes
  split
  next hn =>
    rw [hzero _ (wf_sb.iblock_lt hn)]
    refine Dinode.ext ?_ ?_ ?_ ?_ ?_ (funext fun i => ?_)
    all_goals simp [getDinode, getLE, Fs.fresh]
  next => rfl

/-- The blocks in use on the blank disk. -/
theorem used_blankDisk : used sb blankDisk = metadata sb := by
  ext b
  constructor
  · rintro ⟨hb, hbit⟩
    rw [bblock_sb hb, mod_bpb hb, blankDisk, update_self, bitAt_firstBits,
      decide_eq_true_eq, ← nmeta_sb] at hbit
    exact hbit
  · intro hb
    have hlt : b < fssize := lt_of_lt_of_le hb wf_sb.nmeta_le
    refine ⟨hlt, ?_⟩
    rw [bblock_sb hlt, mod_bpb hlt, blankDisk, update_self, bitAt_firstBits,
      decide_eq_true_eq, ← nmeta_sb]
    exact hb

/-- A zeroed inode is free. -/
theorem not_allocated_fresh (n : Nat) : ¬Allocated sb (fun _ => Fs.fresh 0) n :=
  fun h => h.2.2 rfl

/-- The blank disk is exact. -/
theorem core_blankDisk : Core sb blankDisk (fun _ => Fs.fresh 0) where
  wf := wf_sb
  fits _ := Fs.fits_fresh (by decide)
  exact := by
    have hnone : ∀ i, owner sb blankDisk (fun _ => Fs.fresh 0) i = none :=
      fun i => owner_eq_none fun h => not_allocated_fresh i.1 h.1
    rw [used_blankDisk]
    refine ⟨fun b => ?_, fun i j b hi => ?_, fun i b hi => ?_⟩
    · simp [hnone]
    · rw [hnone] at hi
      cases hi
    · rw [hnone] at hi
      cases hi
  size_le n hn := absurd hn (not_allocated_fresh n)
  mapped n bn hn := absurd hn (not_allocated_fresh n)

/-- The first data block of the blank disk is free. -/
theorem nmeta_free : nmeta ∈ freeBlocks sb blankDisk := by
  rw [mem_freeBlocks, used_blankDisk]
  exact ⟨by decide, lt_irrefl nmeta⟩

/-- The inode of the root fits in its place on the disk. -/
theorem fits_rootInode : rootInode.Fits where
  type := by decide
  major := by decide
  minor := by decide
  nlink := by decide
  size := by decide
  addr i := by
    obtain rfl | hi := eq_or_ne i 0
    · decide
    · simp [rootInode, hi]
  outside i hi := by
    have hne : i ≠ 0 := by
      unfold ndirect at hi
      omega
    simp [rootInode, hne]

/-- The root directory gets its block, and then its size and its link. -/
theorem core_rootDisk : Core sb rootDisk table := by
  have hstart : Core sb blankDisk
      (update (fun _ => Fs.fresh 0) rootino (Fs.fresh 0)) := by
    rw [update_eq_self_iff.mpr rfl]
    exact core_blankDisk
  have htyped := hstart.setType (Fs.fits_fresh (by decide : tDir < 2 ^ 16)) (Or.inl rfl) rfl rfl
  have hclaimed := htyped.claim_direct (n := rootino) (i := 0) nmeta_free
    ⟨by decide, by decide, by rw [update_self]; decide⟩ (by decide)
    (by rw [update_self]; rfl)
  rw [update_self, update_idem] at hclaimed
  have hsmall : rootInode.size ≤ bsize := by decide
  have hsized := hclaimed.setFields fits_rootInode rfl rfl (by decide) ?_
  · refine hsized.frame (fun b hb => ?_) fun n hn hind => ?_
    · have hne : bblock sb b ≠ nmeta := by
        rw [bblock_sb hb]
        decide
      exact update_of_ne hne _ _
    · -- the root has no indirect block, and there are no other inodes
      obtain rfl | hroot := eq_or_ne n rootino
      · rw [update_self] at hind
        exact absurd rfl hind
      · rw [update_of_ne hroot] at hind
        exact absurd rfl hind
  · intro bn hlt
    have hbn : bn = 0 := by
      unfold bsize at hlt hsmall
      omega
    subst hbn
    rw [addrOf_direct (by decide)]
    decide

/-- No inode is written yet. -/
theorem dinodes_rootDisk : dinodes sb rootDisk = fun _ => Fs.fresh 0 := by
  apply dinodes_zero
  intro b hb
  have hlow : b ≠ nmeta := by
    rintro rfl
    exact absurd hb (by decide)
  have hbit : b ≠ sb.bmapstart := hb.ne
  have hbblock : bblock sb nmeta = sb.bmapstart := bblock_sb (by decide)
  rw [rootDisk, update_of_ne hlow, allocDisk_of_ne hlow (by rwa [hbblock]), blankDisk,
    update_of_ne hbit]

/-- The inodes of the image. -/
theorem dinodes_tinyDisk : dinodes sb tinyDisk = table := by
  rw [tinyDisk, dinodes_putDisk (by decide) fits_rootInode, dinodes_rootDisk, table]

/-- The inode of the root. -/
theorem table_root : table rootino = rootInode := update_self _ _ _

/-- The other inodes. -/
theorem table_of_ne {n : Nat} (hn : n ≠ rootino) : table n = Fs.fresh 0 :=
  update_of_ne hn _ _

/-- The root is the only inode in use. -/
theorem allocated_table {n : Nat} : Allocated sb table n ↔ n = rootino := by
  constructor
  · rintro ⟨-, -, htype⟩
    by_contra hn
    rw [table_of_ne hn] at htype
    exact htype rfl
  · rintro rfl
    exact ⟨by decide, by decide, by rw [table_root]; decide⟩

/-- The root directory. -/
theorem node_root : Fs.nodeOf sb tinyDisk rootino = rootInode.node tinyDisk := by
  rw [Fs.nodeOf, dinodes_tinyDisk, if_pos (allocated_table.mpr rfl), table_root]

/-- There are no other files. -/
theorem type_of_ne {n : Nat} (hn : n ≠ rootino) : (Fs.nodeOf sb tinyDisk n).attr.type = 0 := by
  rw [Fs.nodeOf, dinodes_tinyDisk, if_neg (allocated_table.not.mpr hn)]
  rfl

/-- The root has two entries. -/
theorem len_root : (Fs.nodeOf sb tinyDisk rootino).dir.len = 2 := by
  rw [node_root]
  rfl

/-- The entries of the root. -/
theorem slots_root :
    (List.range 2).map (rootInode.node tinyDisk).dir.slot = entries.map some := by
  decide +kernel

/-- Each entry is one of these. -/
theorem entry_of_holds_root {i n : Nat} {a : Name}
    (h : (Fs.nodeOf sb tinyDisk rootino).dir.Holds i a n) : entries[i]? = some (a, n) := by
  obtain ⟨hi, hslot⟩ := h
  rw [len_root] at hi
  rw [node_root] at hslot
  have hget := congrArg (fun l => l[i]?) slots_root
  simp only [List.getElem?_map, List.getElem?_range hi, Option.map_some, hslot] at hget
  obtain ⟨e, he, hsome⟩ := Option.map_eq_some_iff.mp hget.symm
  rw [he, Option.some.inj hsome]

/-- They have different names. -/
theorem distinct_root : (Fs.nodeOf sb tinyDisk rootino).dir.Distinct := by
  intro i j a v w hi hj
  have hnames : (entries.map Prod.fst).Nodup := by decide
  have hi' := congrArg (Option.map Prod.fst) (entry_of_holds_root hi)
  have hj' := congrArg (Option.map Prod.fst) (entry_of_holds_root hj)
  rw [← List.getElem?_map] at hi' hj'
  exact (List.getElem?_inj (List.getElem?_eq_some_iff.mp hi').1 hnames).mp (hi'.trans hj'.symm)

/-- The root is the only directory. -/
theorem eq_root {d : Nat} (hdir : (Fs.nodeOf sb tinyDisk d).attr.type = tDir) : d = rootino := by
  by_contra hne
  rw [type_of_ne hne] at hdir
  exact absurd hdir (by decide)

/-- Both entries lead to the root. -/
theorem edge_tiny {d n : Nat} (h : Edge (Fs.nodeOf sb tinyDisk) d n) : n = rootino := by
  obtain ⟨hdir, k, a, hholds⟩ := h
  rw [eq_root hdir] at hholds
  have hmem := List.mem_of_getElem? (entry_of_holds_root hholds)
  exact (by decide : ∀ e ∈ entries, e.2 = rootino) _ hmem

/-- The image is well formed. -/
theorem image_tinyDisk : DiskImage sb tinyDisk where
  core := by
    rw [dinodes_tinyDisk]
    exact core_rootDisk.putDisk (by decide)
  dirs := {
    size := fun d hd => by
      rw [eq_root hd, node_root]
      decide
    inum := fun d n h => by
      rw [edge_tiny h]
      decide }
  distinct d hd := by
    rw [eq_root hd]
    exact distinct_root
  root := by
    rw [node_root]
    rfl
  linked n hn := by
    rw [dinodes_tinyDisk] at hn ⊢
    rw [allocated_table.mp hn, table_root]
    decide

/-- The root is in use. -/
theorem type_root : (Fs.nodeOf sb tinyDisk rootino).attr.type ≠ 0 := by
  rw [node_root]
  decide

/-- The file system on the image, during one call. -/
def fs : Fs := Fs.mounted sb tinyDisk 1

/-- The invariant holds of the mounted image. -/
theorem ok_fs : Fs.Ok fs := Fs.ok_mounted image_tinyDisk 1

/-- The root directory can be locked. -/
theorem lock_root : ∃ fs', Fs.ilock rootino fs = .ok () fs' ∧
    Fs.Post fs fs' (fs.view.setLocked rootino true) ∅ := by
  have hlock : Returns (Fs.ilock rootino) fs fun _ fs' =>
      Fs.Post fs fs' (fs.view.setLocked rootino true) ∅ := by
    refine (Fs.wp_ilock ok_fs (by decide) (by decide) (by decide)).mono (fun _ _ h => h.2.2) ?_
    rintro e _ (⟨-, hlocked⟩ | ⟨-, hfree⟩)
    · cases hlocked
    · exact type_root hfree
  obtain ⟨_, fs', hrun, hpost⟩ := returns_iff.mp hlock
  exact ⟨fs', hrun, hpost⟩

end Tiny

end Xv6
