import Mathlib.Tactic
import Xv6.Fs.Path

/-!
# Inside a transaction

A system call is a sequence of operations on inodes between `begin_op` and `end_op`.  After each
of them the view has some known form, and some blocks have been logged.

Main definitions:

- {lit}`At`: where a call stands.
- {lit}`Done`: what it leaves behind.
-/

namespace Xv6

open Lib Function

namespace Fs.View

/-- A file that has lost its last reference goes away if it has no links. -/
def settle (v : View) (n : Nat) : View :=
  if v.ref n = 0 ∧ (v.node n).attr.type ≠ 0 ∧ (v.node n).attr.nlink = 0 then v.setNode n .free
  else v

/-- Inode `n` is locked and its file is `x`. -/
def Locked (v : View) (n : Nat) (x : Node) : Prop :=
  v.locked n = true ∧ v.node n = x

/-- The file of an inode that has just been locked. -/
theorem locked_self (v : View) (n : Nat) : (v.setLocked n true).Locked n (v.node n) :=
  ⟨locked_setLocked_self _ _ _, rfl⟩

/-- Only the type and the number of links matter. -/
theorem Idle.of_node {v w : View} {n : Nat} (h : v.Idle n) (hlocked : w.locked n = v.locked n)
    (href : w.ref n = v.ref n) (htype : (w.node n).attr.type = (v.node n).attr.type)
    (hnlink : (w.node n).attr.nlink = (v.node n).attr.nlink) : w.Idle n := by
  refine ⟨hlocked.trans h.unlocked, ?_, ?_⟩
  · rw [href]
    exact h.nonneg
  · rw [href, htype, hnlink]
    exact h.anchored

/-- The references stay. -/
@[simp]
theorem ref_settle (v : View) (n : Nat) : (v.settle n).ref = v.ref := by
  unfold settle
  split <;> rfl

/-- The locks stay. -/
@[simp]
theorem locked_settle (v : View) (n : Nat) : (v.settle n).locked = v.locked := by
  unfold settle
  split <;> rfl

/-- Other files stay. -/
theorem node_settle_of_ne {v : View} {n m : Nat} (hm : m ≠ n) :
    (v.settle n).node m = v.node m := by
  unfold settle
  split
  · exact update_of_ne hm _ _
  · rfl

/-- The changed file. -/
theorem node_setNode_self (v : View) (n : Nat) (x : Node) : (v.setNode n x).node n = x :=
  update_self _ _ _

/-- The last change counts. -/
theorem setNode_setNode (v : View) (n : Nat) (x y : Node) :
    (v.setNode n x).setNode n y = v.setNode n y :=
  View.ext (update_idem _ _ _) rfl rfl

/-- A reference to another inode does not matter. -/
theorem settle_addRef (v : View) {n m : Nat} (hm : m ≠ n) (k : Int) :
    (v.addRef m k).settle n = (v.settle n).addRef m k := by
  unfold settle
  rw [ref_addRef_of_ne _ _ hm.symm, addRef_node]
  split <;> rfl

/-- Locks do not matter. -/
theorem settle_setLocked (v : View) (n m : Nat) (b : Bool) :
    (v.setLocked m b).settle n = (v.settle n).setLocked m b := by
  unfold settle
  rw [setLocked_node, setLocked_ref]
  split <;> rfl

/-- A change of another file does not matter. -/
theorem settle_setNode (v : View) {n m : Nat} (hm : m ≠ n) (x : Node) :
    (v.setNode m x).settle n = (v.settle n).setNode m x := by
  have hself : (v.setNode m x).node n = v.node n := update_of_ne hm.symm _ _
  unfold settle
  rw [hself, setNode_ref]
  split
  · refine View.ext ?_ rfl rfl
    exact update_comm hm _ _ _
  · rfl

end Fs.View

namespace Fs

open Calls

/-! ## Where a call stands -/

/-- Besides the bitmap, `L` has blocks of the inodes in `I` and at most `c` others. -/
def Logs (sb : Superblock) (I : Finset Nat) (c : Nat) (L : List Nat) : Prop :=
  ∃ Y : Finset Nat, Y.card ≤ c ∧ ∀ b ∈ L, b ∈ I.image (iblock sb) ∨ b ∈ bitmap sb ∨ b ∈ Y

/-- In a transaction that began in `fs₀`, the view is `v` and blocks have been logged. -/
structure At (fs₀ : Fs) (I : Finset Nat) (c : Nat) (v : View) (fs : Fs) : Prop where
  ok : Ok fs
  view : fs.view = v
  sb : fs.sb = fs₀.sb
  outstanding : fs.outstanding = fs₀.outstanding + 1
  logs : Logs fs₀.sb I c fs.logged

/-- A transaction is over: the view has become `v`. -/
structure Done (I : Finset Nat) (c : Nat) (fs fs' : Fs) (v : View) : Prop where
  ok : Ok fs'
  view : fs'.view = v
  sb : fs'.sb = fs.sb
  outstanding : fs'.outstanding = fs.outstanding
  logs : Logs fs.sb I c fs'.logged

/-- A state in which no inode is locked, seen by a process with current directory `cwd`. -/
structure Ready (ninodes : Nat) (v : View) (cwd : Nat) : Prop where
  unlocked : ∀ n, v.locked n = false
  dirs : Dirs v.node ninodes
  pos : 0 < cwd
  lt : cwd < ninodes
  held : 0 < v.ref cwd

/-- The entry `k` of directory `d` is neither "." nor "..", and names inode `n`. -/
def Child (N : Nat → Node) (d k : Nat) (a : Name) (n : Nat) : Prop :=
  (N d).attr.type = tDir ∧ (N d).dir.Holds k a n ∧ a ≠ dot ∧ a ≠ dotdot

/-- How a call on the tree can panic, and why. -/
inductive TreePanic (N : Nat → Node) (cwd : Nat) : String → Prop
  | noType {s n : Nat} (hs : s = rootino ∨ s = cwd) (hvisits : Visits N s n)
      (hfree : (N n).attr.type = 0) : TreePanic N cwd "ilock: no type"
  | cacheFull : TreePanic N cwd "iget: no inodes"
  | noInodes : TreePanic N cwd "ialloc: no inodes"
  | noBlocks : TreePanic N cwd "balloc: out of blocks"
  | dirFull {d : Nat} (hdir : (N d).attr.type = tDir) (hsize : (N d).attr.size = maxfile * bsize)
      (hfull : (N d).dir.free = (N d).dir.len) : TreePanic N cwd "dirlink"
  | deadlock {d k : Nat} {a : Name} (hself : Child N d k a d) :
      TreePanic N cwd "acquiresleep: deadlock"
  | noLink {d k n : Nat} {a : Name} (hchild : Child N d k a n)
      (hnlink : belowOne (N n).attr.nlink) : TreePanic N cwd "unlink: nlink < 1"

section Rules

variable {fs₀ fs fs' : Fs} {I J : Finset Nat} {c d n : Nat} {v v' : View}
  {x : Node} {E : String → Fs → Prop}

/-- A transaction is outstanding. -/
theorem At.op (h : At fs₀ I c v fs) : 0 < fs.outstanding := by
  rw [h.outstanding]
  exact Nat.succ_pos _

/-- An unlocked inode is idle. -/
theorem At.idle (h : At fs₀ I c v fs) (hunlocked : v.locked n = false) : v.Idle n := by
  rw [← h.view] at hunlocked ⊢
  exact h.ok.idle hunlocked

/-- More blocks may be logged. -/
theorem At.mono (h : At fs₀ I c v fs) (hI : I ⊆ J) (hc : c ≤ d) : At fs₀ J d v fs := by
  obtain ⟨Y, hY, hlogs⟩ := h.logs
  exact ⟨h.ok, h.view, h.sb, h.outstanding, Y, hY.trans hc, fun b hb =>
    (hlogs b hb).imp_left fun hmem => Finset.image_subset_image hI hmem⟩

/-- The view in another form. -/
theorem At.of_eq (h : At fs₀ I c v fs) (hv : v = v') : At fs₀ I c v' fs := hv ▸ h

/-- An operation that logs the inode `n` and other blocks. -/
theorem At.logged {Y : Finset Nat} (h : At fs₀ I c v fs) (hn : n ∈ I) (hY : Y.card ≤ d)
    (hpost : Post fs fs' v' ({iblock fs.sb n} ∪ bitmap fs.sb ∪ Y)) : At fs₀ I (c + d) v' fs' := by
  obtain ⟨Z, hZ, hlogs⟩ := h.logs
  refine ⟨hpost.ok, hpost.view, hpost.sb.trans h.sb, hpost.outstanding.trans h.outstanding, Z ∪ Y,
    (Finset.card_union_le _ _).trans (Nat.add_le_add hZ hY), fun b hb => ?_⟩
  have hnew := hpost.logs b hb
  rw [h.sb] at hnew
  rcases hnew with hold | (hb | hb) | hb
  · exact (hlogs b hold).imp_right (Or.imp_right (Finset.mem_union_left Y))
  · exact Or.inl (Finset.mem_image.mpr ⟨n, hn, (Set.mem_singleton_iff.mp hb).symm⟩)
  · exact Or.inr (Or.inl hb)
  · exact Or.inr (Or.inr (Finset.mem_union_right Z hb))

/-- An operation that logs nothing. -/
theorem At.same (h : At fs₀ I c v fs) (hpost : Post fs fs' v' ∅) : At fs₀ I c v' fs' := by
  obtain ⟨Y, hY, hlogs⟩ := h.logs
  exact ⟨hpost.ok, hpost.view, hpost.sb.trans h.sb, hpost.outstanding.trans h.outstanding, Y, hY,
    fun b hb => hlogs b ((hpost.logs b hb).resolve_right (Set.notMem_empty b))⟩

/-! ## Operations -/

/-- `begin_op` opens the transaction. -/
theorem wp_begin {α : Type} {f : Unit → Prog Fs α} {Q : α → Fs → Prop} (h : Ok fs)
    (hf : ∀ fs', At fs ∅ 0 fs.view fs' → Wp (f ()) fs' Q E) :
    Wp (InodeLayer.beginOp >>= f) fs Q E := by
  simp only [wp_bind, InodeLayer.beginOp, wp_beginOp]
  exact hf _ ⟨{ h with }, rfl, rfl, rfl, ∅,
    le_rfl, fun b hb => absurd hb List.not_mem_nil⟩

/-- `end_op` closes it. -/
theorem At.ret {α : Type} {r : α} {Q : α → Fs → Prop} (h : At fs₀ I c v fs)
    (hQ : ∀ fs', Done I c fs₀ fs' v → Q r fs') :
    Wp (InodeLayer.endOp : Prog Fs Unit) fs (fun _ fs' => Wp (pure r) fs' Q E) E := by
  have hok := h.ok
  simp only [InodeLayer.endOp, wp_endOp, wp_pure]
  refine hQ _ ⟨{ hok with }, h.view,
    h.sb, ?_, h.logs⟩
  change fs.outstanding - 1 = fs₀.outstanding
  rw [h.outstanding]
  exact Nat.add_sub_cancel _ _

/-- The fields of a locked inode. -/
theorem At.attr {Q : Attr → Fs → Prop} (h : At fs₀ I c v fs) (hx : v.Locked n x) :
    Wp (attr n) fs Q E ↔ Q x.attr fs := by
  rw [← hx.2, ← h.view]
  exact wp_attr h.ok (by rw [h.view]; exact hx.1)

/-- Locking an inode to which the call has a reference. -/
theorem At.ilock (h : At fs₀ I c (v.addRef n 1) fs) (hunlocked : v.locked n = false)
    (hnonneg : 0 ≤ v.ref n) (hpos : 0 < n) (hlt : n < fs₀.sb.ninodes) :
    Wp (ilock n) fs
      (fun _ fs' => (v.node n).attr.type ≠ 0 ∧ At fs₀ I c ((v.addRef n 1).setLocked n true) fs')
      (fun e _ => e = "ilock: no type" ∧ (v.node n).attr.type = 0) := by
  refine (wp_ilock h.ok hpos (h.sb ▸ hlt) (by rw [h.view, View.ref_addRef_self]; omega)).mono ?_ ?_
  · rintro _ fs' ⟨htype, -, hpost⟩
    rw [h.view] at htype hpost
    exact ⟨htype, h.same hpost⟩
  · rintro e _ (⟨-, hl⟩ | ⟨he, hzero⟩)
    · rw [h.view, View.addRef_locked, hunlocked] at hl
      cases hl
    · rw [h.view] at hzero
      exact ⟨he, hzero⟩

/-- Unlocking it. -/
theorem At.iunlock (h : At fs₀ I c (v.setLocked n true) fs) (hunlocked : v.locked n = false) :
    Wp (iunlock n) fs (fun _ fs' => At fs₀ I c v fs') E :=
  (wp_iunlock_idle h.ok h.view hunlocked).imp fun _ _ => h.same

/-- Giving up the lock and the reference. -/
theorem At.iunlockput (h : At fs₀ I c ((v.addRef n 1).setLocked n true) fs) (hidle : v.Idle n) :
    Wp (iunlockput n) fs (fun _ fs' => At fs₀ I c v fs') E :=
  (wp_iunlockput_idle h.ok h.op h.view hidle).imp fun _ _ => h.same

/-- Dropping what may be the last reference. -/
theorem At.iput (h : At fs₀ I c (v.addRef n 1) fs) (hn : n ∈ I) (hunlocked : v.locked n = false)
    (hnonneg : 0 ≤ v.ref n) : Wp (iput n) fs (fun _ fs' => At fs₀ I c (v.settle n) fs') E := by
  have href : fs.view.ref n = v.ref n + 1 := by
    rw [h.view, View.ref_addRef_self]
  refine (wp_iput h.ok h.op (by omega) ?_).imp ?_
  · intro hl
    rw [h.view, View.addRef_locked, hunlocked] at hl
    cases hl
  · intro _ fs' hpost
    have hnode : fs.view.node = v.node := by
      rw [h.view]
      rfl
    split at hpost
    next hcond =>
      have hsame : ((v.addRef n 1).setNode n .free).addRef n (-1) = v.setNode n .free :=
        addRef_addRef (v.setNode n .free) n
      rw [h.view, hsame] at hpost
      rw [hnode] at hcond
      rw [View.settle, if_pos ⟨by omega, hcond.2⟩]
      exact h.logged (Y := ∅) hn le_rfl (hpost.weaken (by simp))
    next hcond =>
      rw [h.view, addRef_addRef] at hpost
      rw [hnode] at hcond
      rw [View.settle, if_neg fun hc => hcond ⟨by omega, hc.2⟩]
      exact h.same hpost

/-- The same, with what may be the last reference. -/
theorem At.iunlockput_settle (h : At fs₀ I c ((v.addRef n 1).setLocked n true) fs) (hn : n ∈ I)
    (hunlocked : v.locked n = false) (hnonneg : 0 ≤ v.ref n) :
    Wp (Calls.iunlockput n) fs (fun _ fs' => At fs₀ I c (v.settle n) fs') E := by
  rw [Calls.iunlockput, wp_bind]
  refine (h.iunlock hunlocked).imp ?_
  intro _ fs₁ h₁
  exact h₁.iput hn hunlocked hnonneg

/-- The fields are of their C types. -/
theorem Ok.fits_attr (h : Ok fs) (n : Nat) : (fs.view.node n).attr.major < 2 ^ 16 ∧
    (fs.view.node n).attr.minor < 2 ^ 16 ∧ (fs.view.node n).attr.nlink < 2 ^ 16 := by
  by_cases halloc : Allocated fs.sb (dinodes fs.sb fs.disk) n
  · rw [node_of_allocated halloc]
    have hfits := h.core.fits n
    exact ⟨hfits.major, hfits.minor, hfits.nlink⟩
  · have hfree : fs.view.node n = .free := if_neg halloc
    rw [hfree]
    exact ⟨by decide, by decide, by decide⟩

/-- A conversion to `ushort`. -/
theorem ushort_lt (x : Nat) : ushort x < 2 ^ 16 :=
  Nat.mod_lt _ (Nat.two_pow_pos 16)

/-- Changing the number of links. -/
theorem At.setLinks (h : At fs₀ I c v fs) (hn : n ∈ I) (hx : v.Locked n x) (nlink : Nat) :
    Wp (setAttr n x.attr.major x.attr.minor (ushort nlink)) fs
      (fun _ fs' => At fs₀ I c
        (v.setNode n (x.setFields x.attr.major x.attr.minor (ushort nlink))) fs') E := by
  obtain ⟨hlocked, rfl⟩ := hx
  obtain ⟨hmajor, hminor, -⟩ := h.ok.fits_attr n
  have hview := h.view
  subst hview
  exact (wp_setAttr h.ok h.op hlocked hmajor hminor (ushort_lt _)).imp
    fun _ _ hpost => h.logged (Y := ∅) hn le_rfl (hpost.weaken (by simp))

/-! ## Directories and paths -/

/-- `dirlookup` in a locked directory. -/
theorem At.dirlookup {name : Name} (h : At fs₀ I c v fs) (hx : v.Locked n x) (hdir : x.IsDir) :
    Wp (dirlookup n name) fs
      (fun r fs' => (r = none ∧ x.dir.lookup (canon name) = none ∧ At fs₀ I c v fs') ∨
        ∃ k m, r = some (direntSize * k, m) ∧ x.dir.lookup (canon name) = some (k, m) ∧
          At fs₀ I c (v.addRef m 1) fs')
      (fun e _ => e = "iget: no inodes") := by
  obtain ⟨hlocked, rfl⟩ := hx
  have hview := h.view
  subst hview
  refine (wp_dirlookup h.ok hlocked hdir).mono ?_ fun _ _ => And.left
  rintro r fs' (⟨hr, hnone, rfl⟩ | ⟨k, m, hr, hsome, hpost⟩)
  · exact Or.inl ⟨hr, hnone, h⟩
  · exact Or.inr ⟨k, m, hr, hsome, h.same hpost⟩

/-- How `dirlink` can panic in directory `x`. -/
def LinkPanic (x : Node) (e : String) : Prop :=
  e = "iget: no inodes" ∨ e = "balloc: out of blocks" ∨
    e = "dirlink" ∧ x.attr.size = maxfile * bsize ∧ x.dir.free = x.dir.len

/-- `dirlink` in a locked directory. -/
theorem At.dirlink {name : Name} {inum : Nat} (h : At fs₀ I c v fs) (hn : n ∈ I)
    (hx : v.Locked n x) (hdir : x.IsDir) :
    Wp (dirlink n name inum) fs
      (fun r fs' => (r = false ∧ x.dir.lookup (canon name) ≠ none ∧ At fs₀ I c v fs') ∨
        (r = true ∧ x.dir.lookup (canon name) = none ∧
          At fs₀ I (c + 2) (v.setNode n (linked x name inum)) fs'))
      (fun e _ => LinkPanic x e) := by
  obtain ⟨hlocked, rfl⟩ := hx
  have hview := h.view
  subst hview
  refine (wp_dirlink h.ok h.op hlocked hdir).mono ?_ ?_
  · rintro r fs' (⟨hr, ⟨k, m, hfound⟩, hpost⟩ | ⟨hr, hnone, -, Y, hY, hpost⟩)
    · exact Or.inl ⟨hr, by simp [hfound], h.same hpost⟩
    · exact Or.inr ⟨hr, hnone, h.logged hn hY hpost⟩
  · rintro e _ (⟨he, -⟩ | hfull | ⟨he, -⟩)
    · exact Or.inl he
    · exact Or.inr (Or.inr hfull)
    · exact Or.inr (Or.inl he)

/-- A new inode, locked and with one link. -/
theorem At.newInode {type major minor : Nat} (h : At fs₀ I c v fs) (htype : type ≠ 0)
    (htype' : type < 2 ^ 16) (hmajor : major < 2 ^ 16) (hminor : minor < 2 ^ 16) :
    Wp (newInode type major minor) fs
      (fun ip fs' => 0 < ip ∧ ip < fs₀.sb.ninodes ∧ (v.node ip).attr.type = 0 ∧
        At fs₀ (insert ip I) c
          (((v.setNode ip (newNode type major minor)).addRef ip 1).setLocked ip true) fs')
      (fun e _ => e = "iget: no inodes" ∨ e = "ialloc: no inodes") := by
  have hview := h.view
  subst hview
  refine (wp_newInode h.ok h.op htype htype' hmajor hminor).imp ?_
  rintro ip fs' ⟨hpos, hlt, hfree, hpost⟩
  exact ⟨hpos, h.sb ▸ hlt, hfree, (h.mono (Finset.subset_insert ip I) le_rfl).logged (Y := ∅)
    (Finset.mem_insert_self ip I) le_rfl (hpost.weaken (by simp))⟩

/-- A panic of `dirlink` in a directory of the tree. -/
theorem LinkPanic.tree {N : Nat → Node} {cwd : Nat} {e : String} (h : LinkPanic (N n) e)
    (hdir : (N n).IsDir) : TreePanic N cwd e := by
  rcases h with rfl | rfl | ⟨rfl, hsize, hfull⟩
  · exact .cacheFull
  · exact .noBlocks
  · exact .dirFull hdir.type hsize hfull

/-- There is room in a small directory. -/
theorem LinkPanic.small {N : Nat → Node} {cwd : Nat} {e : String} (h : LinkPanic x e)
    (hsmall : x.attr.size ≠ maxfile * bsize) : TreePanic N cwd e := by
  rcases h with rfl | rfl | ⟨-, hsize, -⟩
  · exact .cacheFull
  · exact .noBlocks
  · exact absurd hsize hsmall

/-- Where a path starts. -/
theorem start_eq (cwd : Nat) (path : Name) :
    pathStart cwd path = rootino ∨ pathStart cwd path = cwd :=
  ite_eq_or_eq _ _ _

/-- A panic on a path. -/
theorem PathPanic.tree {N : Nat → Node} {cwd : Nat} {path : Name} {e : String}
    (h : PathPanic N (pathStart cwd path) e) : TreePanic N cwd e := by
  rcases h with ⟨rfl, n, hvisits, hfree⟩ | rfl
  · exact .noType (start_eq cwd path) hvisits hfree
  · exact .cacheFull

/-- `namex`. -/
theorem At.namex {cwd : Nat} {path : Name} {parent : Bool} (h : At fs₀ I c v fs)
    (hready : Ready fs₀.sb.ninodes v cwd) :
    Wp (namex cwd path parent) fs
      (fun r fs' => r = pathWalk v.node cwd path parent ∧ match r with
        | none => At fs₀ I c v fs'
        | some e => 0 < e.1 ∧ e.1 < fs₀.sb.ninodes ∧ Visits v.node (pathStart cwd path) e.1 ∧
            At fs₀ I c (v.addRef e.1 1) fs')
      (fun e _ => PathPanic v.node (pathStart cwd path) e) := by
  have hview := h.view
  subst hview
  obtain ⟨hunlocked, hdirs, hpos, hlt, hheld⟩ := hready
  have hstart : 0 < pathStart cwd path ∧ pathStart cwd path < fs₀.sb.ninodes := by
    rcases start_eq cwd path with heq | heq
    · rw [heq, ← h.sb]
      exact ⟨by decide, h.ok.core.wf.root⟩
    · rw [heq]
      exact ⟨hpos, hlt⟩
  refine (wp_namex h.ok h.op (fun n => h.ok.idle (hunlocked n)) (h.sb ▸ hdirs) hpos (h.sb ▸ hlt)
    hheld).mono ?_ ?_
  · rintro r fs' ⟨hr, hpost⟩
    refine ⟨hr, ?_⟩
    cases r with
    | none => exact h.same hpost
    | some e =>
      have hvisits := visits_of_walk hr.symm
      obtain ⟨he, he'⟩ := hdirs.range_of_visits hstart.1 hstart.2 hvisits
      exact ⟨he, he', hvisits, h.same hpost⟩
  · exact fun _ _ he => he.pathPanic

/-- `nameiparent`. -/
theorem At.nameiparent {cwd : Nat} {path : Name} (h : At fs₀ I c v fs)
    (hready : Ready fs₀.sb.ninodes v cwd) :
    Wp (nameiparent cwd path) fs
      (fun r fs' => (r = none ∧ At fs₀ I c v fs') ∨
        ∃ dp name, r = some (dp, name) ∧ (v.node dp).IsDir ∧ 0 < dp ∧ dp < fs₀.sb.ninodes ∧
          pathWalk v.node cwd path true = some (dp, name) ∧
          Visits v.node (pathStart cwd path) dp ∧ At fs₀ I c (v.addRef dp 1) fs')
      (fun e _ => PathPanic v.node (pathStart cwd path) e) := by
  refine (h.namex hready).imp ?_
  rintro r fs' ⟨hr, hres⟩
  cases r with
  | none => exact Or.inl ⟨rfl, hres⟩
  | some e =>
    obtain ⟨hpos, hlt, hvisits, hat⟩ := hres
    exact Or.inr ⟨e.1, e.2, rfl, hready.dirs.isDir (isDir_of_walk hr.symm), hpos, hlt, hr.symm,
      hvisits, hat⟩

/-- `namei`. -/
theorem At.namei {cwd : Nat} {path : Name} (h : At fs₀ I c v fs)
    (hready : Ready fs₀.sb.ninodes v cwd) :
    Wp (namei cwd path) fs
      (fun r fs' => (r = none ∧ At fs₀ I c v fs') ∨
        ∃ ip, r = some ip ∧ 0 < ip ∧ ip < fs₀.sb.ninodes ∧
          Visits v.node (pathStart cwd path) ip ∧ At fs₀ I c (v.addRef ip 1) fs')
      (fun e _ => PathPanic v.node (pathStart cwd path) e) := by
  rw [Calls.namei, wp_bind]
  refine (h.namex hready).imp ?_
  rintro r fs' ⟨-, hres⟩
  rw [wp_pure]
  cases r with
  | none => exact Or.inl ⟨rfl, hres⟩
  | some e =>
    obtain ⟨hpos, hlt, hvisits, hat⟩ := hres
    exact Or.inr ⟨e.1, rfl, hpos, hlt, hvisits, hat⟩

end Rules

end Fs
end Xv6
