import Mathlib.Tactic
import Xv6.Fs.Transaction

/-!
# Changing the tree

What `create`, `link` and `unlink` do to the files, the references and the locks,
which blocks they log, and how they can panic.

Main results:

- Theorems {lit}`wp_create`, {lit}`wp_makeNode`, {lit}`wp_sysLink` and {lit}`wp_sysUnlink`.
-/

namespace Xv6

open Lib Function

namespace Fs

open Calls

/-! ## New files -/

/-- The directory with one more link to it. -/
def addLink (x : Node) : Node :=
  x.setFields x.attr.major x.attr.minor (ushort (x.attr.nlink + 1))

/-- The directory or file with one link less. -/
def dropLink (x : Node) : Node :=
  x.setFields x.attr.major x.attr.minor (ushort (x.attr.nlink + (2 ^ 16 - 1)))

/-- A new directory with its two entries. -/
def newDir (major minor dp ip : Nat) : Node :=
  linked (linked (newNode tDir major minor) dot ip) dotdot dp

/-- The files after `create` has made inode `ip` in directory `dp`. -/
def made (v : View) (dp ip : Nat) (name : Name) (type major minor : Nat) : View :=
  if type = tDir then
    (v.setNode dp (linked (addLink (v.node dp)) name ip)).setNode ip (newDir major minor dp ip)
  else (v.setNode dp (linked (v.node dp) name ip)).setNode ip (newNode type major minor)

section Create

variable {fs₀ fs : Fs} {I : Finset Nat} {c cwd dp ip type major minor : Nat} {v : View}
  {name : Name} {d x : Node}

/-- A new directory. -/
theorem isDir_newNode (major minor : Nat) : (newNode tDir major minor).IsDir :=
  ⟨rfl, rfl⟩

/-- A directory with one more entry. -/
theorem isDir_linked {x : Node} (hdir : x.IsDir) (name : Name) (inum : Nat) :
    (linked x name inum).IsDir :=
  ⟨hdir.type, Node.size_mod_writeEntry hdir.size⟩

/-- The new entry is in the first free place. -/
theorem dir_linked {x : Node} (hdir : x.IsDir) {inum : Nat} (hpos : 0 < inum) (hlt : inum < 2 ^ 16)
    (name : Name) : (linked x name inum).dir = x.dir.set x.dir.free (some (canon name, inum)) := by
  rw [linked, Node.dir_write hdir.size Slots.free_le (length_encodeDirent _ _),
    slotOfEntry_encodeDirent hpos hlt]

/-- A new directory is empty. -/
theorem dir_newNode (major minor : Nat) : (newNode tDir major minor).dir = ⟨0, fun _ => none⟩ := by
  refine Slots.ext (Nat.zero_div _) (funext fun k => ?_)
  exact if_neg (by simp [newNode])

/-- The two names of every directory. -/
theorem canon_dots : canon dot = dot ∧ canon dotdot = dotdot ∧ dot ≠ dotdot := by decide

/-- A new directory after its first entry. -/
theorem dir_firstDot {major minor : Nat} (hpos : 0 < ip) (hlt : ip < 2 ^ 16) :
    (linked (newNode tDir major minor) dot ip).dir =
      ⟨1, update (fun _ => none) 0 (some (dot, ip))⟩ := by
  rw [dir_linked (isDir_newNode major minor) hpos hlt, dir_newNode, canon_dots.1]
  rfl

/-- The second entry is not there yet. -/
theorem lookup_firstDot (hpos : 0 < ip) (hlt : ip < 2 ^ 16) :
    (linked (newNode tDir major minor) dot ip).dir.lookup (canon dotdot) = none := by
  rw [Slots.lookup_eq_none, dir_firstDot hpos hlt, canon_dots.2.1]
  rintro k n ⟨hk, hslot⟩
  obtain rfl : k = 0 := Nat.lt_one_iff.mp hk
  exact canon_dots.2.2 (congrArg Prod.fst (Option.some.inj hslot))

/-- Nothing is found in a new directory. -/
theorem lookup_newNode (a : Name) : (newNode tDir major minor).dir.lookup a = none := by
  rw [dir_newNode]
  rfl

/-- The size with one entry. -/
theorem size_firstDot : (linked (newNode tDir major minor) dot ip).attr.size = direntSize := by
  rw [linked, Node.size_writeEntry, dir_newNode]
  rfl

/-- Links do not matter. -/
theorem isDir_addLink {x : Node} (hdir : x.IsDir) : (addLink x).IsDir := ⟨hdir.type, hdir.size⟩

/-- The view while `create` holds the directory `dp` and the new inode `ip`. -/
def creating (v : View) (dp ip : Nat) (d x : Node) : View :=
  (((((v.setNode dp d).setNode ip x).addRef ip 1).setLocked ip true).addRef dp 1).setLocked dp true

/-- The two locked inodes. -/
theorem locked_creating (hne : ip ≠ dp) :
    (creating v dp ip d x).Locked dp d ∧ (creating v dp ip d x).Locked ip x :=
  ⟨⟨update_self _ _ _, (update_of_ne hne.symm _ _).trans (update_self _ _ _)⟩,
    (update_of_ne hne _ _).trans (update_self _ _ _), update_self _ _ _⟩

/-- A change of the parent. -/
theorem setNode_creating_dir {d' : Node} (hne : ip ≠ dp) :
    (creating v dp ip d x).setNode dp d' = creating v dp ip d' x := by
  refine View.ext ?_ rfl rfl
  change update (update (update v.node dp d) ip x) dp d' = _
  rw [update_comm hne, update_idem]
  rfl

/-- A change of the new file. -/
theorem setNode_creating_new {x' : Node} :
    (creating v dp ip d x).setNode ip x' = creating v dp ip d x' := by
  refine View.ext ?_ rfl rfl
  change update (update (update v.node dp d) ip x) ip x' = _
  rw [update_idem]
  rfl

/-- Taking the new inode on top of the locked directory. -/
theorem creating_start (hne : ip ≠ dp) :
    (((((v.addRef dp 1).setLocked dp true).setNode ip x).addRef ip 1).setLocked ip true) =
      creating v dp ip (v.node dp) x := by
  refine View.ext ?_ ?_ ?_
  · change _ = update (update v.node dp (v.node dp)) ip x
    rw [update_eq_self]
    rfl
  · change ((v.addRef dp 1).addRef ip 1).ref = ((v.addRef ip 1).addRef dp 1).ref
    rw [View.addRef_comm]
  · exact update_comm hne.symm _ _ _

/-- "." and "..". -/
theorem wp_createDots {N : Nat → Node}
    (h : At fs₀ I c (creating v dp ip d (newNode tDir major minor)) fs) (hdp : dp ∈ I)
    (hip : ip ∈ I) (hne : ip ≠ dp) (hpos : 0 < ip) (hlt : ip < 2 ^ 16) :
    Wp (createDots dp ip) fs
      (fun _ fs' => At fs₀ I (c + 4) (creating v dp ip (addLink d) (newDir major minor dp ip)) fs')
      (fun e _ => TreePanic N cwd e) := by
  simp only [createDots, wp_bind]
  refine (h.attr (locked_creating hne).1).mpr ?_
  refine (h.setLinks hdp (locked_creating hne).1 _).imp ?_
  intro _ fs₁ h₁
  have h₁ := h₁.of_eq (setNode_creating_dir hne)
  refine (h₁.dirlink hip (locked_creating hne).2 (isDir_newNode _ _)).mono ?_
    fun _ _ he => he.small (show 0 ≠ maxfile * bsize by decide)
  rintro r fs₂ (⟨-, hfound, -⟩ | ⟨rfl, -, h₂⟩)
  · exact absurd (lookup_newNode _) hfound
  · rw [if_neg (by decide)]
    simp only [wp_bind]
    have h₂ := h₂.of_eq setNode_creating_new
    refine (h₂.dirlink hip (locked_creating hne).2 (isDir_linked (isDir_newNode _ _) _ _)).mono ?_
      fun _ _ he => he.small (by rw [size_firstDot]; decide)
    rintro r fs₃ (⟨-, hfound, -⟩ | ⟨rfl, -, h₃⟩)
    · exact absurd (lookup_firstDot hpos hlt) hfound
    · rw [if_neg (by decide), wp_pure]
      exact h₃.of_eq setNode_creating_new

/-- The last part of `create`. -/
theorem wp_createEntry (h : At fs₀ I c (creating v dp ip d x) fs) (hdp : dp ∈ I) (hne : ip ≠ dp)
    (hidle : v.Idle dp) (hdir : d.IsDir) (hnone : d.dir.lookup (canon name) = none) :
    Wp (createEntry dp name ip) fs
      (fun r fs' => r = ip ∧ At fs₀ I (c + 2) (((((v.setNode dp (linked d name ip)).setNode ip
        x).settle dp).addRef ip 1).setLocked ip true) fs')
      (fun e _ => LinkPanic d e) := by
  simp only [createEntry, wp_bind]
  refine (h.dirlink hdp (locked_creating hne).1 hdir).imp ?_
  rintro r fs₁ (⟨-, hfound, -⟩ | ⟨rfl, -, h₁⟩)
  · exact absurd hnone hfound
  · rw [if_neg (by decide)]
    simp only [wp_bind]
    refine ((h₁.of_eq (setNode_creating_dir hne)).iunlockput_settle hdp ?_ ?_).imp ?_
    · exact (update_of_ne hne.symm _ _).trans hidle.unlocked
    · exact hidle.nonneg.trans_eq (update_of_ne hne.symm _ _).symm
    · intro _ fs₂ h₂
      rw [View.settle_setLocked, View.settle_addRef _ hne] at h₂
      exact wp_pure.mpr ⟨rfl, h₂⟩

/-- `create` of a name that is not in the locked directory `dp`. -/
theorem wp_createIn (h : At fs₀ I c ((v.addRef dp 1).setLocked dp true) fs) (hidle : v.Idle dp)
    (hdir : (v.node dp).IsDir) (hnone : (v.node dp).dir.lookup (canon name) = none)
    (htype : type ≠ 0) (htype' : type < 2 ^ 16) (hmajor : major < 2 ^ 16)
    (hminor : minor < 2 ^ 16) :
    Wp (createIn dp name type major minor) fs
      (fun ip fs' => 0 < ip ∧ ip < fs₀.sb.ninodes ∧ (v.node ip).attr.type = 0 ∧ ip ≠ dp ∧
        At fs₀ (insert dp (insert ip I)) (c + 6)
          ((((made v dp ip name type major minor).settle dp).addRef ip 1).setLocked ip true) fs')
      (fun e _ => TreePanic v.node cwd e) := by
  simp only [createIn, wp_bind]
  refine (h.newInode htype htype' hmajor hminor).mono ?_ ?_
  · rintro ip fs₁ ⟨hpos, hlt, hfree, h₁⟩
    change (v.node ip).attr.type = 0 at hfree
    have hne : ip ≠ dp := by
      rintro rfl
      rw [hdir.type] at hfree
      exact absurd hfree (by decide)
    have hlt' : ip < 2 ^ 16 := by
      rw [← h.sb] at hlt
      exact hlt.trans_le h.ok.core.wf.ninodes_le
    have hdp : dp ∈ insert dp (insert ip I) := Finset.mem_insert_self _ _
    have hip : ip ∈ insert dp (insert ip I) := Finset.mem_insert_of_mem (Finset.mem_insert_self _ _)
    have h₁ := (h₁.of_eq (creating_start hne)).mono (Finset.subset_insert dp _) le_rfl
    unfold made
    split
    next hisDir =>
      subst hisDir
      simp only [wp_bind]
      refine (wp_createDots h₁ hdp hip hne hpos hlt').imp ?_
      intro _ fs₂ h₂
      refine (wp_createEntry h₂ hdp hne hidle (isDir_addLink hdir) hnone).mono ?_
        fun _ _ (he : LinkPanic (v.node dp) _) => he.tree hdir
      rintro _ fs₃ ⟨rfl, h₃⟩
      exact ⟨hpos, hlt, hfree, hne, h₃⟩
    · refine (wp_createEntry h₁ hdp hne hidle hdir hnone).mono ?_ fun e _ he => he.tree hdir
      rintro _ fs₃ ⟨rfl, h₃⟩
      exact ⟨hpos, hlt, hfree, hne, h₃.mono subset_rfl (by omega)⟩
  · rintro e _ (rfl | rfl)
    · exact .cacheFull
    · exact .noInodes

end Create

/-- Inode `ip` is free, and the path leads to a name that is missing in the
directory `dp`. -/
structure Fresh (N : Nat → Node) (ninodes cwd : Nat) (path : Name) (dp ip : Nat) (name : Name) :
    Prop where
  walk : pathWalk N cwd path true = some (dp, name)
  dp_pos : 0 < dp
  dp_lt : dp < ninodes
  isDir : (N dp).IsDir
  absent : (N dp).dir.lookup (canon name) = none
  pos : 0 < ip
  lt : ip < ninodes
  free : (N ip).attr.type = 0
  ne : ip ≠ dp

section Tree

variable {fs₀ fs : Fs} {I : Finset Nat} {c cwd dp ip type major minor : Nat} {v : View}
  {path name : Name} {E : String → Fs → Prop}

/-- `create`. -/
theorem wp_create (h : At fs₀ ∅ 0 v fs) (hready : Ready fs₀.sb.ninodes v cwd)
    (htype : type ≠ 0) (htype' : type < 2 ^ 16) (hmajor : major < 2 ^ 16)
    (hminor : minor < 2 ^ 16) :
    Wp (create cwd path type major minor) fs
      (fun r fs' =>
        (r = none ∧ At fs₀ ∅ 0 v fs') ∨
        (∃ ip, r = some ip ∧ type = tFile ∧
          ((v.node ip).attr.type = tFile ∨ (v.node ip).attr.type = tDevice) ∧
          0 < ip ∧ ip < fs₀.sb.ninodes ∧ At fs₀ ∅ 0 ((v.addRef ip 1).setLocked ip true) fs') ∨
        ∃ dp ip name, r = some ip ∧ Fresh v.node fs₀.sb.ninodes cwd path dp ip name ∧
          At fs₀ {dp, ip} 6
            ((((made v dp ip name type major minor).settle dp).addRef ip 1).setLocked ip true) fs')
      (fun e _ => TreePanic v.node cwd e) := by
  have hidle : ∀ n, v.Idle n := fun n => h.idle (hready.unlocked n)
  simp only [create, wp_bind]
  refine (h.nameiparent hready).mono ?_ fun _ _ he => he.tree
  rintro r fs₁ (⟨rfl, h₁⟩ | ⟨dp, name, rfl, hdir, hdp, hdp', hwalk, hvisits, h₁⟩)
  · exact wp_pure.mpr (Or.inl ⟨rfl, h₁⟩)
  simp only [wp_bind]
  refine (h₁.ilock (hready.unlocked dp) (hidle dp).nonneg hdp hdp').mono ?_ ?_
  · rintro _ fs₂ ⟨-, h₂⟩
    refine (h₂.dirlookup (View.locked_self _ _) hdir).mono ?_ fun e _ he => he ▸ .cacheFull
    rintro r fs₃ (⟨rfl, hnone, h₃⟩ | ⟨k, ip, rfl, hfound, h₃⟩)
    · simp only [wp_bind]
      refine (wp_createIn h₃ (hidle dp) hdir hnone htype htype' hmajor hminor).imp ?_
      rintro ip fs' ⟨hip, hip', hfree, hne, h₄⟩
      exact wp_pure.mpr (Or.inr (Or.inr ⟨dp, ip, name, rfl, ⟨hwalk, hdp, hdp', hdir, hnone,
        hip, hip', hfree, hne⟩, h₄⟩))
    · -- The name exists.
      simp only [wp_bind]
      have hedge := Dirs.edge_of_lookup hdir.type hfound
      have hip : 0 < ip ∧ ip < fs₀.sb.ninodes :=
        ⟨Dirs.pos_of_edge hedge, hready.dirs.inum dp ip hedge⟩
      have h₃ : At fs₀ ∅ 0 (((v.addRef ip 1).addRef dp 1).setLocked dp true) fs₃ := by
        rw [View.addRef_comm]
        exact h₃
      refine (h₃.iunlockput ((hidle dp).addRef ip)).imp ?_
      intro _ fs₄ h₄
      refine (h₄.ilock (hready.unlocked ip) (hidle ip).nonneg hip.1 hip.2).mono ?_ ?_
      · rintro _ fs₅ ⟨-, h₅⟩
        refine (h₅.attr (View.locked_self _ _)).mpr ?_
        split
        next hfile =>
          exact wp_pure.mpr (Or.inr (Or.inl ⟨ip, rfl, hfile.1, hfile.2, hip.1, hip.2, h₅⟩))
        · simp only [wp_bind]
          refine (h₅.iunlockput (hidle ip)).imp ?_
          exact fun _ fs₆ h₆ => wp_pure.mpr (Or.inl ⟨rfl, h₆⟩)
      · rintro e _ ⟨rfl, hfree⟩
        exact .noType (start_eq cwd path) (.tail hvisits hedge) hfree
  · rintro e _ ⟨rfl, hfree⟩
    exact .noType (start_eq cwd path) hvisits hfree

/-- The new file. -/
theorem node_made :
    (made v dp ip name type major minor).node ip =
      if type = tDir then newDir major minor dp ip else newNode type major minor := by
  unfold made
  split
  · exact update_self _ _ _
  · exact update_self _ _ _

/-- The references stay. -/
@[simp]
theorem ref_made (v : View) (dp ip : Nat) (name : Name) (type major minor : Nat) :
    (made v dp ip name type major minor).ref = v.ref := by
  unfold made
  split <;> rfl

/-- The locks stay. -/
@[simp]
theorem locked_made (v : View) (dp ip : Nat) (name : Name) (type major minor : Nat) :
    (made v dp ip name type major minor).locked = v.locked := by
  unfold made
  split <;> rfl

/-- A new file has a link. -/
theorem nlink_made :
    ((made v dp ip name type major minor).node ip).attr.nlink = 1 := by
  rw [node_made]
  split <;> rfl

/-- The new file is idle. -/
theorem Fresh.idle {ninodes : Nat} (h : Fresh v.node ninodes cwd path dp ip name)
    (hidle : v.Idle ip) :
    ((made v dp ip name type major minor).settle dp).Idle ip where
  unlocked := by
    rw [View.locked_settle, locked_made]
    exact hidle.unlocked
  nonneg := by
    rw [View.ref_settle, ref_made]
    exact hidle.nonneg
  anchored := by
    intro _ hzero
    rw [View.node_settle_of_ne h.ne, nlink_made] at hzero
    exact absurd hzero one_ne_zero

/-- `mkdir` and `mknod`. -/
theorem wp_makeNode (h : Ok fs) (hready : Ready fs.sb.ninodes fs.view cwd)
    (htype : type = tDir ∨ type = tDevice) (hmajor : major < 2 ^ 16) (hminor : minor < 2 ^ 16) :
    Wp (makeNode cwd path type major minor) fs
      (fun r fs' =>
        (r = -1 ∧ Done ∅ 0 fs fs' fs.view) ∨
        (r = 0 ∧ ∃ dp ip name,
          Fresh fs.view.node fs.sb.ninodes cwd path dp ip name ∧
          Done {dp, ip} 6 fs fs' ((made fs.view dp ip name type major minor).settle dp)))
      (fun e _ => TreePanic fs.view.node cwd e) := by
  have hne : type ≠ 0 ∧ type < 2 ^ 16 ∧ type ≠ tFile := by
    rcases htype with rfl | rfl
    · decide
    · decide
  refine wp_begin h fun fs₁ h₁ => ?_
  simp only [wp_bind]
  refine (wp_create h₁ hready hne.1 hne.2.1 hmajor hminor).imp ?_
  rintro r fs₂ (⟨rfl, h₂⟩ | ⟨ip, -, hfile, -⟩ | ⟨dp, ip, name, rfl, hfresh, h₂⟩)
  · simp only [wp_bind]
    exact h₂.ret fun fs' hdone => Or.inl ⟨rfl, hdone⟩
  · exact absurd hfile hne.2.2
  · simp only [wp_bind]
    refine (h₂.iunlockput (hfresh.idle (h₁.idle (hready.unlocked ip)))).imp ?_
    exact fun _ fs₃ h₃ => h₃.ret fun fs' hdone => Or.inr ⟨rfl, dp, ip, name, hfresh, hdone⟩

/-! ### `link` -/

/-- Two tables with the same directories. -/
def SameDirs (N N' : Nat → Node) : Prop :=
  ∀ n, (N' n).attr.type = (N n).attr.type ∧ (N' n).attr.size = (N n).attr.size ∧
    (N' n).data = (N n).data

/-- The same edges. -/
theorem SameDirs.edge {N N' : Nat → Node} (h : SameDirs N N') : Edge N' = Edge N := by
  funext d n
  obtain ⟨htype, hsize, hdata⟩ := h d
  have hdir : (N' d).dir = (N d).dir := by
    simp only [Node.dir, Node.entry, hsize, hdata]
  unfold Edge
  rw [htype, hdir]

/-- The same directories. -/
theorem SameDirs.dirs {N N' : Nat → Node} {ninodes : Nat} (h : SameDirs N N')
    (hdirs : Dirs N ninodes) : Dirs N' ninodes where
  size := by
    intro d hd
    rw [(h d).2.1]
    exact hdirs.size d ((h d).1 ▸ hd)
  inum := by
    rw [h.edge]
    exact hdirs.inum

/-- The same panics. -/
theorem SameDirs.panic {N N' : Nat → Node} {start : Nat} {e : String} (h : SameDirs N N')
    (he : PathPanic N' start e) : PathPanic N start e := by
  rcases he with ⟨rfl, n, hvisits, hfree⟩ | rfl
  · refine Or.inl ⟨rfl, n, ?_, (h n).1 ▸ hfree⟩
    unfold Visits at hvisits ⊢
    rwa [h.edge] at hvisits
  · exact Or.inr rfl

/-- A link changes no directory. -/
theorem sameDirs_addLink (N : Nat → Node) (n : Nat) :
    SameDirs N (update N n (addLink (N n))) := by
  intro m
  by_cases hm : m = n
  · rw [hm, update_self]
    exact ⟨rfl, rfl, rfl⟩
  · rw [update_of_ne hm]
    exact ⟨rfl, rfl, rfl⟩

/-- Adding a link and dropping it. -/
theorem dropLink_addLink {x : Node} (hfits : x.attr.nlink < 2 ^ 16) : dropLink (addLink x) = x := by
  have hnlink : ushort (ushort (x.attr.nlink + 1) + (2 ^ 16 - 1)) = x.attr.nlink := by
    have hsum : 1 + (2 ^ 16 - 1) = 2 ^ 16 := by decide
    rw [ushort, ushort, Nat.mod_add_mod, Nat.add_assoc, hsum, Nat.add_mod_right,
      Nat.mod_eq_of_lt hfits]
  simp only [dropLink, addLink, Node.setFields, hnlink]

/-- The error exit of `link` takes the new link back. -/
theorem wp_linkBad (h : At fs₀ I c ((v.setNode ip (addLink (v.node ip))).addRef ip 1) fs)
    (hip : ip ∈ I) (hpos : 0 < ip) (hlt : ip < fs₀.sb.ninodes) (hidle : v.Idle ip)
    (htype : (v.node ip).attr.type ≠ 0) (hfits : (v.node ip).attr.nlink < 2 ^ 16) :
    Wp (linkBad ip) fs (fun r fs' => r = -1 ∧ Done I c fs₀ fs' v) E := by
  have hself : (v.setNode ip (addLink (v.node ip))).node ip = addLink (v.node ip) :=
    View.node_setNode_self _ _ _
  simp only [linkBad, wp_bind]
  refine (h.ilock hidle.unlocked hidle.nonneg hpos hlt).mono ?_ ?_
  · rintro _ fs₁ ⟨-, h₁⟩
    have hlocked : View.Locked _ ip (addLink (v.node ip)) := hself ▸ View.locked_self _ _
    refine (h₁.attr hlocked).mpr ?_
    refine (h₁.setLinks hip hlocked _).imp ?_
    intro _ fs₂ h₂
    have hback :
        (v.setNode ip (addLink (v.node ip))).setNode ip (dropLink (addLink (v.node ip))) = v := by
      rw [View.setNode_setNode, dropLink_addLink hfits]
      exact View.ext (update_eq_self _ _) rfl rfl
    have h₂ := h₂.of_eq (congrArg (fun w : View => (w.addRef ip 1).setLocked ip true) hback)
    refine (h₂.iunlockput hidle).imp ?_
    exact fun _ fs₃ h₃ => h₃.ret fun fs' hdone => ⟨rfl, hdone⟩
  · rintro e _ ⟨-, hzero⟩
    rw [hself] at hzero
    exact absurd hzero htype

/-- The files after `link` has entered inode `ip` in directory `dp`. -/
def linkMade (v : View) (dp ip : Nat) (name : Name) : View :=
  (v.setNode ip (addLink (v.node ip))).setNode dp (linked (v.node dp) name ip)

/-- The path is followed while the new link is counted already. -/
theorem Ready.addLink {ninodes : Nat} (h : Ready ninodes v cwd) (ip : Nat) :
    Ready ninodes ((v.setNode ip (addLink (v.node ip))).addRef ip 1) cwd where
  unlocked := h.unlocked
  dirs := (sameDirs_addLink v.node ip).dirs h.dirs
  pos := h.pos
  lt := h.lt
  held := by
    have href := h.held
    by_cases hcwd : cwd = ip
    · rw [hcwd, View.ref_addRef_self, View.setNode_ref, ← hcwd]
      omega
    · rwa [View.ref_addRef_of_ne _ _ hcwd]

/-- The second half of `link`, with the new link counted. -/
theorem wp_linkNew {new : Name}
    (h : At fs₀ {ip} 0 ((v.setNode ip (addLink (v.node ip))).addRef ip 1) fs)
    (hready : Ready fs₀.sb.ninodes v cwd) (hidle : v.Idle ip) (hpos : 0 < ip)
    (hlt : ip < fs₀.sb.ninodes) (htype : (v.node ip).attr.type ≠ 0)
    (hfile : (v.node ip).attr.type ≠ tDir) (hfits : (v.node ip).attr.nlink < 2 ^ 16) :
    Wp (linkNew cwd ip new) fs
      (fun r fs' => (r = -1 ∧ ∃ dp, Done {dp, ip} 0 fs₀ fs' v) ∨
        (r = 0 ∧ ∃ dp name, 0 < dp ∧ dp < fs₀.sb.ninodes ∧ (v.node dp).IsDir ∧
          (v.node dp).dir.lookup (canon name) = none ∧
          Done {dp, ip} 2 fs₀ fs' ((linkMade v dp ip name).settle ip)))
      (fun e _ => TreePanic v.node cwd e) := by
  have hsame := sameDirs_addLink v.node ip
  have hready' := hready.addLink ip
  simp only [linkNew, wp_bind]
  refine (h.nameiparent hready').mono ?_ fun _ _ he => (hsame.panic he).tree
  rintro r fs₁ (⟨rfl, h₁⟩ | ⟨dp, name, rfl, hdir, hdp, hdp', -, hvisits, h₁⟩)
  · refine (wp_linkBad (h₁.mono (Finset.subset_insert ip _) le_rfl) (Finset.mem_insert_self _ _)
      hpos hlt hidle htype hfits).imp fun _ _ hbad => Or.inl ⟨hbad.1, ip, hbad.2⟩
  have hne : ip ≠ dp := by
    rintro rfl
    exact hfile ((hsame ip).1.symm.trans hdir.type)
  have hidleDp := h.idle (hready'.unlocked dp)
  have hnode : ((v.setNode ip (Fs.addLink (v.node ip))).addRef ip 1).node dp = v.node dp :=
    update_of_ne hne.symm _ _
  simp only [wp_bind]
  refine (h₁.ilock (hready'.unlocked dp) hidleDp.nonneg hdp hdp').mono ?_ ?_
  · rintro _ fs₂ ⟨-, h₂⟩
    have hlocked : View.Locked _ dp (v.node dp) := hnode ▸ View.locked_self _ _
    rw [hnode] at hdir
    have h₂ := h₂.mono (Finset.subset_insert dp _) le_rfl
    refine (h₂.dirlink (Finset.mem_insert_self _ _) hlocked hdir).mono ?_ fun _ _ he => he.tree hdir
    rintro r fs₃ (⟨rfl, -, h₃⟩ | ⟨rfl, hnone, h₃⟩)
    · -- The name exists.
      refine (h₃.iunlockput hidleDp).imp ?_
      intro _ fs₄ h₄
      rw [if_pos rfl]
      exact (wp_linkBad h₄ (by simp) hpos hlt hidle htype hfits).imp
        fun _ _ hbad => Or.inl ⟨hbad.1, dp, hbad.2⟩
    · have hput : (((v.setNode ip (Fs.addLink (v.node ip))).addRef ip 1).setNode dp
          (linked (v.node dp) name ip)).Idle dp := by
        exact hidleDp.of_node rfl rfl (by rw [View.node_setNode_self, hnode]; rfl)
          (by rw [View.node_setNode_self, hnode]; rfl)
      refine (At.iunlockput h₃ hput).imp ?_
      intro _ fs₄ h₄
      rw [if_neg (by decide)]
      simp only [wp_bind]
      have h₄ : At fs₀ {dp, ip} 2 ((linkMade v dp ip name).addRef ip 1) fs₄ := h₄
      refine (h₄.iput (by simp) hidle.unlocked hidle.nonneg).imp ?_
      exact fun _ fs₅ h₅ => h₅.ret fun fs' hdone =>
        Or.inr ⟨rfl, dp, name, hdp, hdp', hdir, hnone, hdone⟩
  · rintro e _ ⟨rfl, hfree⟩
    exact (hsame.panic (Or.inl ⟨rfl, dp, hvisits, hfree⟩)).tree

/-- `sys_link`. -/
theorem wp_sysLink {old new : Name} (h : Ok fs) (hready : Ready fs.sb.ninodes fs.view cwd) :
    Wp (sysLink cwd old new) fs
      (fun r fs' => (r = -1 ∧ ∃ dp ip, Done {dp, ip} 0 fs fs' fs.view) ∨
        (r = 0 ∧ ∃ dp ip name, 0 < dp ∧ dp < fs.sb.ninodes ∧ 0 < ip ∧ ip < fs.sb.ninodes ∧
          (fs.view.node dp).IsDir ∧ (fs.view.node ip).attr.type ≠ 0 ∧
          (fs.view.node ip).attr.type ≠ tDir ∧
          (fs.view.node dp).dir.lookup (canon name) = none ∧
          Done {dp, ip} 2 fs fs' ((linkMade fs.view dp ip name).settle ip)))
      (fun e _ => TreePanic fs.view.node cwd e) := by
  have hidle : ∀ n, fs.view.Idle n := fun n => h.idle (hready.unlocked n)
  have hbad : ∀ {fs₁}, At fs ∅ 0 fs.view fs₁ → At fs {0, 0} 0 fs.view fs₁ := fun h₁ =>
    h₁.mono (Finset.empty_subset _) le_rfl
  refine wp_begin h fun fs₁ h₁ => ?_
  simp only [wp_bind]
  refine (h₁.namei hready).mono ?_ fun _ _ he => he.tree
  rintro r fs₂ (⟨rfl, h₂⟩ | ⟨ip, rfl, hip, hip', hvisits, h₂⟩)
  · simp only [wp_bind]
    exact (hbad h₂).ret fun fs' hdone => Or.inl ⟨rfl, 0, 0, hdone⟩
  simp only [wp_bind]
  refine (h₂.ilock (hready.unlocked ip) (hidle ip).nonneg hip hip').mono ?_ ?_
  · rintro _ fs₃ ⟨htype, h₃⟩
    refine (h₃.attr (View.locked_self _ _)).mpr ?_
    split
    · simp only [wp_bind]
      refine (h₃.iunlockput (hidle ip)).imp ?_
      exact fun _ fs₄ h₄ => (hbad h₄).ret fun fs' hdone => Or.inl ⟨rfl, 0, 0, hdone⟩
    next hfile =>
      simp only [wp_bind]
      have h₃ := h₃.mono (Finset.empty_subset {ip}) le_rfl
      refine (h₃.setLinks (Finset.mem_singleton_self ip) (View.locked_self _ _) _).imp ?_
      intro _ fs₄ h₄
      have h₄ : At fs {ip} 0
        (((fs.view.setNode ip (addLink (fs.view.node ip))).addRef ip 1).setLocked ip true) fs₄ := h₄
      refine (h₄.iunlock (hready.unlocked ip)).imp ?_
      intro _ fs₅ h₅
      refine (wp_linkNew h₅ hready (hidle ip) hip hip' htype hfile (h.fits_attr ip).2.2).imp ?_
      rintro r fs' (⟨hr, dp, hdone⟩ | ⟨hr, dp, name, hdp, hdp', hdir, hnone, hdone⟩)
      · exact Or.inl ⟨hr, dp, ip, hdone⟩
      · exact Or.inr ⟨hr, dp, ip, name, hdp, hdp', hip, hip', hdir, htype, hfile, hnone, hdone⟩
  · rintro e _ ⟨rfl, hfree⟩
    exact .noType (start_eq cwd old) hvisits hfree

/-! ### `unlink` -/

/-- A directory after its entry `k` has been removed; `sub` tells whether the entry
was a directory. -/
def unlinked (x : Node) (k : Nat) (sub : Bool) : Node :=
  let y := x.writeEntry k (List.replicate direntSize 0)
  if sub then dropLink y else y

/-- The files after `unlink` has removed entry `k` of directory `dp`, which named
inode `ip`. -/
def removed (v : View) (dp ip k : Nat) : View :=
  (v.setNode dp (unlinked (v.node dp) k ((v.node ip).attr.type = tDir))).setNode ip
    (dropLink (v.node ip))

/-- Zeroing an entry that is there. -/
theorem At.zeroEntry {x : Node} {k : Nat} (h : At fs₀ I c v fs) (hdp : dp ∈ I) (hx : v.Locked dp x)
    (hdir : x.IsDir) (hk : k < x.dir.len) :
    Wp (writei dp (kernelSource (List.replicate direntSize 0)) (direntSize * k) direntSize) fs
      (fun r fs' => r = direntSize ∧ At fs₀ I (c + 2)
        (v.setNode dp (x.writeEntry k (List.replicate direntSize 0))) fs') E := by
  obtain ⟨hlocked, rfl⟩ := hx
  have hview := h.view
  subst hview
  refine (wp_writeEntry h.ok h.op hlocked hk.le hdir.size).mono ?_ ?_
  · rintro r fs' (⟨-, -, hend, -⟩ | ⟨hr, -, Y, hY, hpost⟩)
    · omega
    · exact ⟨hr, h.logged hdp hY hpost⟩
  · rintro e _ ⟨-, hfew⟩
    rw [missing_entry h.ok hlocked hdir hk, Finset.card_empty] at hfew
    exact absurd hfew (Nat.not_lt_zero _)

/-- The view while `unlink` holds the directory `dp` and the inode `ip`. -/
def locking (v : View) (dp ip : Nat) : View :=
  (((v.addRef ip 1).setLocked ip true).addRef dp 1).setLocked dp true

/-- The two locked inodes. -/
theorem locked_locking (hne : ip ≠ dp) :
    (locking v dp ip).Locked dp (v.node dp) ∧ (locking v dp ip).Locked ip (v.node ip) :=
  ⟨View.locked_self _ _, (update_of_ne hne _ _).trans (update_self _ _ _), rfl⟩

/-- Locking `ip` while `dp` is locked. -/
theorem locking_of (hne : ip ≠ dp) :
    (((v.addRef dp 1).setLocked dp true).addRef ip 1).setLocked ip true = locking v dp ip := by
  refine View.ext rfl ?_ ?_
  · change ((v.addRef dp 1).addRef ip 1).ref = ((v.addRef ip 1).addRef dp 1).ref
    rw [View.addRef_comm]
  · exact update_comm hne.symm _ _ _

/-- The inode `ip` loses a link, and both inodes are put. -/
theorem wp_unlinkDrop (h : At fs₀ I c (locking v dp ip) fs) (hdpI : dp ∈ I) (hipI : ip ∈ I)
    (hne : ip ≠ dp) (hdp : v.locked dp = false ∧ 0 ≤ v.ref dp)
    (hip : v.locked ip = false ∧ 0 ≤ v.ref ip) :
    Wp (unlinkDrop dp ip) fs
      (fun r fs' => r = 0 ∧ Done I c fs₀ fs'
        (((v.setNode ip (dropLink (v.node ip))).settle dp).settle ip)) E := by
  simp only [unlinkDrop, wp_bind]
  refine (At.iunlockput_settle h hdpI ?_ ?_).imp ?_
  · exact (View.locked_setLocked_of_ne _ _ hne.symm).trans hdp.1
  · exact hdp.2.trans_eq (View.ref_addRef_of_ne _ _ hne.symm).symm
  · intro _ fs₁ h₁
    rw [View.settle_setLocked, View.settle_addRef _ hne] at h₁
    have hlocked : View.Locked _ ip (v.node ip) :=
      View.node_settle_of_ne hne ▸ View.locked_self ((v.settle dp).addRef ip 1) ip
    refine (h₁.attr hlocked).mpr ?_
    refine (h₁.setLinks hipI hlocked _).imp ?_
    intro _ fs₂ h₂
    have h₂ : At fs₀ I c (((((v.settle dp).setNode ip (dropLink (v.node ip))).addRef ip
      1).setLocked ip true)) fs₂ := h₂
    rw [← View.settle_setNode _ hne] at h₂
    refine (h₂.iunlockput_settle hipI ?_ ?_).imp ?_
    · rw [View.locked_settle]
      exact hip.1
    · rw [View.ref_settle]
      exact hip.2
    · exact fun _ fs₃ h₃ => h₃.ret fun fs' hdone => ⟨rfl, hdone⟩

/-- The entry of `ip` is removed from `dp`; both are locked. -/
theorem wp_unlinkEntry {k : Nat} (h : At fs₀ I c (locking v dp ip) fs) (hdpI : dp ∈ I)
    (hipI : ip ∈ I) (hne : ip ≠ dp) (hdp : v.Idle dp) (hip : v.Idle ip) (hdir : (v.node dp).IsDir)
    (hk : k < (v.node dp).dir.len) :
    Wp (unlinkEntry dp ip (direntSize * k) (v.node ip).attr) fs
      (fun r fs' => r = 0 ∧ Done I (c + 2) fs₀ fs' (((removed v dp ip k).settle dp).settle ip))
      E := by
  have hnode : ∀ x, (v.setNode dp x).node ip = v.node ip := fun x => update_of_ne hne _ _
  have hdrop : ∀ {x : Node} {fs₁ : Fs}, At fs₀ I (c + 2) (locking (v.setNode dp x) dp ip) fs₁ →
      Wp (unlinkDrop dp ip) fs₁ (fun r fs' => r = 0 ∧ Done I (c + 2) fs₀ fs'
        ((((v.setNode dp x).setNode ip (dropLink (v.node ip))).settle dp).settle ip)) E := by
    intro x fs₁ h₁
    have hall := wp_unlinkDrop (E := E) h₁ hdpI hipI hne ⟨hdp.unlocked, hdp.nonneg⟩
      ⟨hip.unlocked, hip.nonneg⟩
    rwa [hnode] at hall
  simp only [unlinkEntry, wp_bind]
  refine (h.zeroEntry hdpI (locked_locking hne).1 hdir hk).imp ?_
  rintro _ fs₁ ⟨rfl, h₁⟩
  rw [if_neg (not_not.mpr rfl)]
  unfold removed
  split
  next hsub =>
    simp only [wp_bind]
    have hlocked : ((locking v dp ip).setNode dp ((v.node dp).writeEntry k
        (List.replicate direntSize 0))).Locked dp _ :=
      ⟨update_self _ _ _, update_self _ _ _⟩
    refine (h₁.attr hlocked).mpr ?_
    refine (h₁.setLinks hdpI hlocked _).imp ?_
    intro _ fs₂ h₂
    rw [View.setNode_setNode] at h₂
    rw [decide_eq_true hsub]
    exact hdrop h₂
  next hfile =>
    rw [decide_eq_false hfile]
    exact hdrop h₁

/-- The failing end of `sys_unlink`. -/
theorem wp_unlinkBad (h : At fs₀ I c ((v.addRef dp 1).setLocked dp true) fs) (hidle : v.Idle dp) :
    Wp (unlinkBad dp) fs (fun r fs' => r = -1 ∧ Done I c fs₀ fs' v) E := by
  simp only [unlinkBad, wp_bind]
  refine (h.iunlockput hidle).imp ?_
  exact fun _ fs₁ h₁ => h₁.ret fun fs' hdone => ⟨rfl, hdone⟩

/-- The test whether an inode is a directory with entries. -/
theorem At.usedDir {x : Node} (h : At fs₀ I c v fs) (hx : v.Locked ip x)
    (hsize : x.attr.type = tDir → x.attr.size % direntSize = 0) :
    Wp (usedDir ip x.attr) fs
      (fun r fs' => (r = false ↔ (x.attr.type = tDir → Bare x.dir)) ∧ At fs₀ I c v fs') E := by
  obtain ⟨hlocked, rfl⟩ := hx
  have hview := h.view
  subst hview
  unfold Calls.usedDir
  split
  next hsub =>
    rw [wp_bind]
    refine (wp_isdirempty h.ok hlocked (hsize hsub)).imp ?_
    rintro r fs' ⟨rfl, hr⟩
    rw [wp_pure, Bool.not_eq_false', hr]
    exact ⟨⟨fun hb _ => hb, fun hb => hb hsub⟩, h⟩
  next hfile =>
    exact wp_pure.mpr ⟨⟨fun _ hsub => absurd hsub hfile, fun _ => rfl⟩, h⟩

/-- `unlink` once the entry has been found. -/
theorem wp_unlinkFound {s k : Nat} {a : Name}
    (h : At fs₀ ∅ 0 (((v.addRef dp 1).setLocked dp true).addRef ip 1) fs)
    (hready : Ready fs₀.sb.ninodes v cwd) (hidle : ∀ n, v.Idle n) (hchild : Child v.node dp k a ip)
    (hs : s = rootino ∨ s = cwd) (hvisits : Visits v.node s dp) :
    Wp (unlinkFound dp ip (direntSize * k)) fs
      (fun r fs' => (r = -1 ∧ Done ∅ 0 fs₀ fs' v) ∨
        (r = 0 ∧ (v.node ip).attr.type ≠ 0 ∧ ¬belowOne (v.node ip).attr.nlink ∧
          ((v.node ip).attr.type = tDir → Bare (v.node ip).dir) ∧ ip ≠ dp ∧
          Done {dp, ip} 2 fs₀ fs' (((removed v dp ip k).settle dp).settle ip)))
      (fun e _ => TreePanic v.node cwd e) := by
  have hedge : Edge v.node dp ip := ⟨hchild.1, k, a, hchild.2.1⟩
  have hdir := hready.dirs.isDir hchild.1
  simp only [unlinkFound, wp_bind]
  by_cases hne : ip = dp
  · -- The directory is locked already.
    subst hne
    have href : 0 < fs.view.ref ip := by
      have hnonneg := ((hidle ip).addRef ip).nonneg
      rw [h.view, View.ref_addRef_self, View.setLocked_ref]
      omega
    refine (wp_ilock h.ok (Dirs.pos_of_edge hedge) (h.sb ▸ hready.dirs.inum ip ip hedge)
      href).mono ?_ ?_
    · rintro _ fs₁ ⟨-, hfree, -⟩
      rw [h.view, View.addRef_locked, View.locked_setLocked_self] at hfree
      cases hfree
    · rintro e _ (⟨rfl, -⟩ | ⟨rfl, hzero⟩)
      · exact .deadlock hchild
      · rw [h.view] at hzero
        exact .noType hs hvisits hzero
  have hidleIp : ((v.addRef dp 1).setLocked dp true).Idle ip :=
    ((hidle ip).addRef dp).of_node (View.locked_setLocked_of_ne _ _ hne) rfl rfl rfl
  refine (h.ilock hidleIp.unlocked hidleIp.nonneg (Dirs.pos_of_edge hedge)
    (hready.dirs.inum dp ip hedge)).mono ?_ ?_
  · rintro _ fs₁ ⟨htype, h₁⟩
    have hlocked : View.Locked _ ip (v.node ip) := View.locked_self
      (((v.addRef dp 1).setLocked dp true).addRef ip 1) ip
    refine (h₁.attr hlocked).mpr ?_
    split
    next hbelow =>
      rw [wp_bind, wp_throw]
      exact .noLink hchild hbelow
    next habove =>
      rw [wp_bind]
      refine (h₁.usedDir hlocked (hready.dirs.size ip)).imp ?_
      rintro r fs₂ ⟨hr, h₂⟩
      split
      · simp only [wp_bind]
        refine (h₂.iunlockput hidleIp).imp ?_
        exact fun _ fs₃ h₃ => (wp_unlinkBad h₃ (hidle dp)).imp fun _ _ => Or.inl
      next hyes =>
        have hbare := hr.mp (by simpa using hyes)
        have h₂ := (h₂.of_eq (locking_of hne)).mono (Finset.empty_subset {dp, ip}) le_rfl
        refine (wp_unlinkEntry h₂ (by simp) (by simp) hne (hidle dp) (hidle ip) hdir
          hchild.2.1.1).imp ?_
        rintro r fs' ⟨hr, hdone⟩
        exact Or.inr ⟨hr, htype, habove, hbare, hne, hdone⟩
  · rintro e _ ⟨rfl, hzero⟩
    exact .noType hs (.tail hvisits hedge) hzero

/-- `sys_unlink`. -/
theorem wp_sysUnlink (h : Ok fs) (hready : Ready fs.sb.ninodes fs.view cwd) :
    Wp (sysUnlink cwd path) fs
      (fun r fs' => (r = -1 ∧ Done ∅ 0 fs fs' fs.view) ∨
        (r = 0 ∧ ∃ dp ip k a, Child fs.view.node dp k a ip ∧
          (fs.view.node ip).attr.type ≠ 0 ∧ ¬belowOne (fs.view.node ip).attr.nlink ∧
          ((fs.view.node ip).attr.type = tDir → Bare (fs.view.node ip).dir) ∧ ip ≠ dp ∧
          Done {dp, ip} 2 fs fs' (((removed fs.view dp ip k).settle dp).settle ip)))
      (fun e _ => TreePanic fs.view.node cwd e) := by
  have hidle : ∀ n, fs.view.Idle n := fun n => h.idle (hready.unlocked n)
  refine wp_begin h fun fs₁ h₁ => ?_
  simp only [wp_bind]
  refine (h₁.nameiparent hready).mono ?_ fun _ _ he => he.tree
  rintro r fs₂ (⟨rfl, h₂⟩ | ⟨dp, name, rfl, hdir, hdp, hdp', -, hvisits, h₂⟩)
  · simp only [wp_bind]
    exact h₂.ret fun fs' hdone => Or.inl ⟨rfl, hdone⟩
  simp only [wp_bind]
  refine (h₂.ilock (hready.unlocked dp) (hidle dp).nonneg hdp hdp').mono ?_ ?_
  · rintro _ fs₃ ⟨-, h₃⟩
    split
    · exact (wp_unlinkBad h₃ (hidle dp)).imp fun _ _ => Or.inl
    next hname =>
      rw [namecmp_eq_zero, namecmp_eq_zero, canon_dots.1, canon_dots.2.1, not_or] at hname
      simp only [wp_bind]
      refine (h₃.dirlookup (View.locked_self _ _) hdir).mono ?_ fun e _ he => he ▸ .cacheFull
      rintro r fs₄ (⟨rfl, -, h₄⟩ | ⟨k, ip, rfl, hfound, h₄⟩)
      · exact (wp_unlinkBad h₄ (hidle dp)).imp fun _ _ => Or.inl
      · have hchild : Child fs.view.node dp k (canon name) ip :=
          ⟨hdir.type, .of_lookup hfound, hname⟩
        refine (wp_unlinkFound h₄ hready hidle hchild (start_eq cwd path) hvisits).imp ?_
        rintro r fs' (hbad | ⟨hr, hfound⟩)
        · exact Or.inl hbad
        · exact Or.inr ⟨hr, dp, ip, k, canon name, hchild, hfound⟩
  · rintro e _ ⟨rfl, hfree⟩
    exact .noType (start_eq cwd path) hvisits hfree

/-! ### `open` -/

/-- The inode that `open` finds or makes. -/
theorem wp_openInode {omode : Nat} (h : At fs₀ ∅ 0 v fs) (hready : Ready fs₀.sb.ninodes v cwd) :
    Wp (openInode cwd path omode) fs
      (fun r fs' =>
        (r = none ∧ At fs₀ ∅ 0 v fs') ∨
        (∃ ip, r = some ip ∧ 0 < ip ∧ ip < fs₀.sb.ninodes ∧ (v.node ip).attr.type ≠ 0 ∧
          ((v.node ip).attr.type = tDir → omode = 0) ∧
          At fs₀ ∅ 0 ((v.addRef ip 1).setLocked ip true) fs') ∨
        (omode &&& oCreate ≠ 0 ∧ ∃ dp ip name, r = some ip ∧
          Fresh v.node fs₀.sb.ninodes cwd path dp ip name ∧
          At fs₀ {dp, ip} 6
            ((((made v dp ip name tFile 0 0).settle dp).addRef ip 1).setLocked ip true) fs'))
      (fun e _ => TreePanic v.node cwd e) := by
  have hidle : ∀ n, v.Idle n := fun n => h.idle (hready.unlocked n)
  unfold openInode
  split
  next hcreate =>
    refine (wp_create h hready (by decide) (by decide) (by decide) (by decide)).imp ?_
    rintro r fs' (hnone | ⟨ip, hr, -, hfile, hpos, hlt, h₁⟩ | hnew)
    · exact Or.inl hnone
    · refine Or.inr (Or.inl ⟨ip, hr, hpos, hlt, ?_, ?_, h₁⟩)
      · rcases hfile with hfile | hfile
        · rw [hfile]
          decide
        · rw [hfile]
          decide
      · intro hdir
        rw [hdir] at hfile
        exact absurd hfile (by decide)
    · exact Or.inr (Or.inr ⟨hcreate, hnew⟩)
  · rw [wp_bind]
    refine (h.namei hready).mono ?_ fun _ _ he => he.tree
    rintro r fs₁ (⟨rfl, h₁⟩ | ⟨ip, rfl, hip, hip', hvisits, h₁⟩)
    · exact wp_pure.mpr (Or.inl ⟨rfl, h₁⟩)
    simp only [wp_bind]
    refine (h₁.ilock (hready.unlocked ip) (hidle ip).nonneg hip hip').mono ?_ ?_
    · rintro _ fs₂ ⟨htype, h₂⟩
      refine (h₂.attr (View.locked_self _ _)).mpr ?_
      split
      · simp only [wp_bind]
        refine (h₂.iunlockput (hidle ip)).imp ?_
        exact fun _ fs₃ h₃ => wp_pure.mpr (Or.inl ⟨rfl, h₃⟩)
      next hmode =>
        refine wp_pure.mpr (Or.inr (Or.inl ⟨ip, rfl, hip, hip', htype, ?_, h₂⟩))
        intro hdir
        by_contra hne
        exact hmode ⟨hdir, hne⟩
    · rintro e _ ⟨rfl, hfree⟩
      exact .noType (start_eq cwd path) hvisits hfree

end Tree

end Fs

end Xv6
