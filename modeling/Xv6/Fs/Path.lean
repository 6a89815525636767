import Mathlib.Tactic
import Xv6.Fs.Directory

/-!
# Paths

`namex` walks down a path one element after the other, and holds a reference on
the inode it has reached.  It changes nothing else, whatever it meets.

Main results:

- Theorem {lit}`wp_namex`: `namex` computes {lit}`walk` and leaves one reference.
- Theorem {lit}`visits_of_walk`: what `namex` returns can be visited.
-/

namespace Xv6

open Lib Function

/-! ## The graph of directories -/

/-- Directory `d` has an entry for inode `n`. -/
def Edge (N : Nat → Node) (d n : Nat) : Prop :=
  (N d).attr.type = tDir ∧ ∃ k a, (N d).dir.Holds k a n

/-- Inode `n` can be visited from inode `s`. -/
def Visits (N : Nat → Node) : Nat → Nat → Prop :=
  Relation.ReflTransGen (Edge N)

/-- Directories consist of whole entries, and these have inode numbers. -/
structure Dirs (N : Nat → Node) (ninodes : Nat) : Prop where
  size : ∀ d, (N d).attr.type = tDir → (N d).attr.size % direntSize = 0
  inum : ∀ d n, Edge N d n → n < ninodes

namespace Dirs

variable {N : Nat → Node} {ninodes d n : Nat}

/-- A directory consists of whole entries. -/
theorem isDir (h : Dirs N ninodes) (hd : (N d).attr.type = tDir) : (N d).IsDir :=
  ⟨hd, h.size d hd⟩

/-- Entries do not lead to inode 0. -/
theorem pos_of_edge (hedge : Edge N d n) : 0 < n := by
  obtain ⟨-, k, a, hholds⟩ := hedge
  exact Node.pos_of_holds hholds

/-- What is found is an entry. -/
theorem edge_of_lookup {k : Nat} {a : Calls.Name} (hd : (N d).attr.type = tDir)
    (hfound : (N d).dir.lookup a = some (k, n)) : Edge N d n :=
  ⟨hd, k, a, .of_lookup hfound⟩

/-- What can be visited has an inode number. -/
theorem range_of_visits (h : Dirs N ninodes) {s : Nat} (hpos : 0 < s) (hlt : s < ninodes)
    (hvisits : Visits N s n) : 0 < n ∧ n < ninodes := by
  rcases Relation.ReflTransGen.cases_tail hvisits with rfl | ⟨m, -, hedge⟩
  · exact ⟨hpos, hlt⟩
  · exact ⟨pos_of_edge hedge, h.inum m n hedge⟩

end Dirs

namespace Calls

/-! ## What `namex` computes -/

/-- `namexLoop` on a table of files. -/
def walk (N : Nat → Node) (parent : Bool) : (fuel : Nat) → Name → Nat → Name → Option (Nat × Name)
  | 0, _, _, _ => none
  | fuel + 1, path, ip, name =>
    match skipelem path with
    | none => if parent then none else some (ip, name)
    | some (name, rest) =>
      if (N ip).attr.type ≠ tDir then none
      else if parent ∧ rest = [] then some (ip, name)
      else
        match (N ip).dir.lookup (canon name) with
        | none => none
        | some (_, next) => walk N parent fuel rest next name

/-- `namexLoop` at `path` and inode `ip` gets to lock inode `n`: there is an element to look up. -/
inductive Locks (N : Nat → Node) : (path : Name) → (ip n : Nat) → Prop where
  | here {path : Name} {ip : Nat} {e : Name × Name} (hskip : skipelem path = some e) :
      Locks N path ip ip
  | next {path name rest : Name} {ip k m n : Nat} (hskip : skipelem path = some (name, rest))
      (hdir : (N ip).attr.type = tDir) (hfound : (N ip).dir.lookup (canon name) = some (k, m))
      (h : Locks N rest m n) : Locks N path ip n

/-- What is locked can be visited. -/
theorem Locks.visits {N : Nat → Node} {path : Name} {ip n : Nat} (h : Locks N path ip n) :
    Visits N ip n := by
  induction h with
  | here => exact .refl
  | next _ hdir hfound _ ih => exact .head (Dirs.edge_of_lookup hdir hfound) ih

/-- Where a path starts. -/
def pathStart (cwd : Nat) (path : Name) : Nat :=
  if path.head? = some 47 then rootino else cwd

/-- `namex` on a table of files. -/
def pathWalk (N : Nat → Node) (cwd : Nat) (path : Name) (parent : Bool) : Option (Nat × Name) :=
  walk N parent (path.length + 1) path (pathStart cwd path) []

/-- `skipelem` takes something off a path. -/
theorem length_skipelem {path name rest : Name} (h : skipelem path = some (name, rest)) :
    rest.length < path.length := by
  unfold skipelem at h
  dsimp only at h
  split at h
  · cases h
  next hne =>
    rw [Option.some.injEq, Prod.mk.injEq] at h
    obtain ⟨-, rfl⟩ := h
    -- The element that is copied is not empty.
    have hdrop : ∀ (p : UInt8 → Bool) (l : List UInt8), (l.dropWhile p).length ≤ l.length :=
      fun p l => (List.dropWhile_sublist p).length_le
    cases hl : path.dropWhile (· = 47) with
    | nil => exact absurd hl hne
    | cons c l =>
      have hc : c ≠ 47 := by
        have hhead := List.head?_dropWhile_not (· = 47) path
        rw [hl] at hhead
        simpa using hhead
      have hfirst := hdrop (· = 47) path
      have hsecond := hdrop (· = 47) ((c :: l).dropWhile (· ≠ 47))
      have hthird := hdrop (· ≠ 47) l
      rw [hl] at hfirst
      rw [List.dropWhile_cons_of_pos (by simpa using hc)] at hsecond ⊢
      simp only [List.length_cons] at hfirst
      omega

section Walk

variable {N : Nat → Node} {parent : Bool} {n : Nat} {last : Name}

/-- What `namex` returns can be visited. -/
theorem visits_of_walk {fuel : Nat} {path : Name} {ip : Nat} {name : Name}
    (h : walk N parent fuel path ip name = some (n, last)) : Visits N ip n := by
  induction fuel generalizing path ip name with
  | zero => cases h
  | succ fuel ih =>
    rw [walk] at h
    split at h
    · split at h
      · cases h
      · rw [Option.some.injEq, Prod.mk.injEq] at h
        rw [h.1]
        exact .refl
    · split at h
      · cases h
      next hdir =>
        split at h
        · rw [Option.some.injEq, Prod.mk.injEq] at h
          rw [h.1]
          exact .refl
        · split at h
          · cases h
          next hfound =>
            exact .head (Dirs.edge_of_lookup (not_not.mp hdir) hfound) (ih h)

/-- The parent that `namex` returns is a directory. -/
theorem isDir_of_walk {fuel : Nat} {path : Name} {ip : Nat} {name : Name}
    (h : walk N true fuel path ip name = some (n, last)) : (N n).attr.type = tDir := by
  induction fuel generalizing path ip name with
  | zero => cases h
  | succ fuel ih =>
    rw [walk] at h
    split at h
    · cases h
    · split at h
      · cases h
      next hdir =>
        split at h
        · rw [Option.some.injEq, Prod.mk.injEq] at h
          rw [← h.1]
          exact not_not.mp hdir
        · split at h
          · cases h
          · exact ih h

end Walk

end Calls

/-! ## References on top of a view -/

namespace Fs.View

/-- The references to the inode itself. -/
@[simp]
theorem ref_addRef_self (v : View) (n : Nat) (k : Int) : (v.addRef n k).ref n = v.ref n + k :=
  update_self _ _ _

/-- A reference to another inode. -/
theorem ref_addRef_of_ne (v : View) {n m : Nat} (k : Int) (hm : m ≠ n) :
    (v.addRef n k).ref m = v.ref m :=
  update_of_ne hm _ _

/-- The lock of the inode itself. -/
@[simp]
theorem locked_setLocked_self (v : View) (n : Nat) (b : Bool) : (v.setLocked n b).locked n = b :=
  update_self _ _ _

/-- The lock of another inode. -/
theorem locked_setLocked_of_ne (v : View) {n m : Nat} (b : Bool) (hm : m ≠ n) :
    (v.setLocked n b).locked m = v.locked m :=
  update_of_ne hm _ _

/-- Locking and unlocking. -/
theorem setLocked_setLocked (v : View) {n : Nat} {b : Bool} (hn : v.locked n = b) (b' : Bool) :
    (v.setLocked n b').setLocked n b = v := by
  refine View.ext rfl rfl ?_
  simp [setLocked, ← hn]

/-- References to two inodes. -/
theorem addRef_comm (v : View) (n m : Nat) (k l : Int) :
    (v.addRef n k).addRef m l = (v.addRef m l).addRef n k := by
  refine View.ext rfl (funext fun i => ?_) rfl
  by_cases hn : i = n
  · by_cases hm : i = m
    · subst hn hm
      simp only [addRef, update_self]
      omega
    · subst hn
      simp [addRef, hm]
  · obtain rfl | hm := eq_or_ne i m
    · simp [addRef, hn]
    · simp [addRef, hn, hm]

/-- An inode has no lock, and no link only if there is a reference. -/
structure Idle (v : View) (n : Nat) : Prop where
  unlocked : v.locked n = false
  nonneg : 0 ≤ v.ref n
  anchored : (v.node n).attr.type ≠ 0 → (v.node n).attr.nlink = 0 → 0 < v.ref n

/-- One more reference. -/
theorem Idle.addRef {v : View} {n : Nat} (h : v.Idle n) (m : Nat) : (v.addRef m 1).Idle n where
  unlocked := h.unlocked
  nonneg := by
    by_cases hm : n = m
    · rw [hm, ref_addRef_self, ← hm]
      have := h.nonneg
      omega
    · rw [ref_addRef_of_ne _ _ hm]
      exact h.nonneg
  anchored := by
    intro htype hnlink
    have hpos := h.anchored htype hnlink
    by_cases hm : n = m
    · rw [hm, ref_addRef_self, ← hm]
      omega
    · rwa [ref_addRef_of_ne _ _ hm]

end Fs.View

namespace Fs

open Calls

section Walk

variable {fs : Fs} {v : View} {ip : Nat} {E : String → Fs → Prop}

/-- An inode of a right state that nobody has locked. -/
theorem Ok.idle {n : Nat} (h : Ok fs) (hn : fs.view.locked n = false) : fs.view.Idle n :=
  ⟨hn, h.ref_nonneg n, h.orphan_ref⟩

/-- Doing nothing changes nothing. -/
theorem Ok.post_self (h : Ok fs) (hview : fs.view = v) : Post fs fs v ∅ :=
  ⟨h, hview, rfl, rfl, fun _ hc => Or.inl hc⟩

/-- Dropping a reference on top of `v`. -/
theorem wp_iput_idle (h : Ok fs) (hop : 0 < fs.outstanding) (hview : fs.view = v.addRef ip 1)
    (hidle : v.Idle ip) : Wp (iput ip) fs (fun _ fs' => Post fs fs' v ∅) E := by
  have href : fs.view.ref ip = v.ref ip + 1 := by
    rw [hview, View.ref_addRef_self]
  have hnonneg := hidle.nonneg
  refine (wp_iput_extra h hop (by omega) ?_ ?_).imp ?_
  · intro hl
    rw [hview, View.addRef_locked, hidle.unlocked] at hl
    cases hl
  · intro htype hnlink
    rw [hview] at htype hnlink
    have hpos := hidle.anchored htype hnlink
    omega
  · intro _ fs' hpost
    rwa [hview, addRef_addRef] at hpost

/-- Unlocking an inode that was locked on top of `v`. -/
theorem wp_iunlock_idle (h : Ok fs) (hview : fs.view = v.setLocked ip true)
    (hunlocked : v.locked ip = false) :
    Wp (iunlock ip) fs (fun _ fs' => Post fs fs' v ∅) E := by
  refine (wp_iunlock h (by rw [hview, View.locked_setLocked_self])).imp ?_
  intro _ fs' hpost
  rwa [hview, View.setLocked_setLocked v hunlocked] at hpost

/-- Giving up an inode that was taken and locked on top of `v`. -/
theorem wp_iunlockput_idle (h : Ok fs) (hop : 0 < fs.outstanding)
    (hview : fs.view = (v.addRef ip 1).setLocked ip true) (hidle : v.Idle ip) :
    Wp (iunlockput ip) fs (fun _ fs' => Post fs fs' v ∅) E := by
  rw [iunlockput, wp_bind]
  refine (wp_iunlock_idle h hview hidle.unlocked).imp ?_
  intro _ fs₁ hpost
  refine (wp_iput_idle hpost.ok (hpost.outstanding ▸ hop) hpost.view hidle).imp ?_
  intro _ fs₂ hpost₂
  have hall := hpost.trans hpost₂
  rwa [Set.union_empty] at hall

/-- The reference that `namex` leaves. -/
def withResult (v : View) (r : Option (Nat × Name)) : View :=
  r.elim v fun e => v.addRef e.1 1

/-- How a path can lead to a panic: to a free inode, or the cache is full. -/
def PathPanic (N : Nat → Node) (start : Nat) (e : String) : Prop :=
  (e = "ilock: no type" ∧ ∃ n, Visits N start n ∧ (N n).attr.type = 0) ∨ e = "iget: no inodes"

/-- The inode cache has room for two more inodes. -/
def Room (v : View) : Prop :=
  ∃ S : Finset Nat, S.card + 2 ≤ ninode ∧ ∀ n, 0 < v.ref n → n ∈ S

/-- How `namex` can panic: it locks an inode that is free, or there is no room in the cache. -/
def NamexPanic (v : View) (path : Name) (start : Nat) (e : String) : Prop :=
  (e = "ilock: no type" ∧ ∃ n, Locks v.node path start n ∧ (v.node n).attr.type = 0) ∨
    (e = "iget: no inodes" ∧ ¬Room v)

/-- A panic of `namex` is one of its path. -/
theorem NamexPanic.pathPanic {path : Name} {start : Nat} {e : String}
    (h : NamexPanic v path start e) : PathPanic v.node start e :=
  h.imp (fun ⟨he, n, hlocks, hfree⟩ => ⟨he, n, hlocks.visits, hfree⟩) And.left

/-- One reference has been taken since there was room for two. -/
theorem Ok.cacheable_of_room {n : Nat} (h : Ok fs) (ip : Nat) (hroom : Room v)
    (href : ∀ m, 0 < fs.view.ref m → m = ip ∨ 0 < v.ref m) : Cacheable fs n := by
  obtain ⟨S, hcard, hS⟩ := hroom
  obtain ⟨S', hcard', hS'⟩ := h.counted
  have hsub : S' ⊆ insert ip S := by
    intro m hm
    rw [Finset.mem_insert]
    exact (href m ((hS' m).mp hm)).imp_right (hS m)
  have hle := (Finset.card_le_card hsub).trans (Finset.card_insert_le ip S)
  exact Or.inr (by omega)

/-- The loop of `namex` holds one reference on top of the view `v`. -/
theorem wp_namexLoop {parent : Bool} {fuel : Nat} {path name : Name} (h : Ok fs)
    (hop : 0 < fs.outstanding) (hview : fs.view = v.addRef ip 1) (hidle : ∀ n, v.Idle n)
    (hdirs : Dirs v.node fs.sb.ninodes) (hpos : 0 < ip) (hlt : ip < fs.sb.ninodes)
    (hfuel : path.length < fuel) :
    Wp (namexLoop parent fuel path ip name) fs
      (fun r fs' => r = walk v.node parent fuel path ip name ∧ Post fs fs' (withResult v r) ∅)
      (fun e _ => NamexPanic v path ip e) := by
  induction fuel generalizing fs path ip name with
  | zero => exact absurd hfuel (Nat.not_lt_zero _)
  | succ fuel ih =>
    rw [namexLoop, walk]
    cases hskip : skipelem path with
    | none =>
      -- The path is used up.
      cases parent with
      | true =>
        simp only [if_true, wp_bind]
        refine (wp_iput_idle h hop hview (hidle ip)).imp ?_
        intro _ fs' hpost
        exact wp_pure.mpr ⟨rfl, hpost⟩
      | false =>
        simp only [Bool.false_eq_true, if_false, wp_pure]
        exact ⟨trivial, h.post_self hview⟩
    | some e =>
      obtain ⟨elem, rest⟩ := e
      have hshort := length_skipelem hskip
      have href : 0 < fs.view.ref ip := by
        have hnonneg := (hidle ip).nonneg
        rw [hview, View.ref_addRef_self]
        omega
      simp only [wp_bind]
      refine (wp_ilock h hpos hlt href).mono ?_ ?_
      · rintro _ fs₁ ⟨-, -, hpost₁⟩
        have hview₁ : fs₁.view = (v.addRef ip 1).setLocked ip true := by
          rw [hpost₁.view, hview]
        have hlocked₁ : fs₁.view.locked ip = true := by
          rw [hview₁, View.locked_setLocked_self]
        have hnode₁ : fs₁.view.node = v.node := by
          rw [hview₁]
          rfl
        have hop₁ : 0 < fs₁.outstanding := hpost₁.outstanding ▸ hop
        -- Giving up leaves the view as it was.
        have hgiveUp : ∀ fs₂, Post fs₁ fs₂ v ∅ → Post fs fs₂ v ∅ := by
          intro fs₂ hpost₂
          have hall := hpost₁.trans hpost₂
          rwa [Set.union_empty] at hall
        refine (wp_attr hpost₁.ok hlocked₁).mpr ?_
        rw [hnode₁]
        split
        · simp only [wp_bind]
          refine (wp_iunlockput_idle hpost₁.ok hop₁ hview₁ (hidle ip)).imp ?_
          intro _ fs₂ hpost₂
          exact wp_pure.mpr ⟨rfl, hgiveUp fs₂ hpost₂⟩
        next hdir =>
          rw [not_not] at hdir
          split
          next hlast =>
            simp only [wp_bind]
            refine (wp_iunlock_idle hpost₁.ok hview₁ (hidle ip).unlocked).imp ?_
            intro _ fs₂ hpost₂
            have hall := hpost₁.trans hpost₂
            rw [Set.union_empty] at hall
            exact wp_pure.mpr ⟨rfl, hall⟩
          · simp only [wp_bind]
            refine (wp_dirlookup hpost₁.ok hlocked₁ (by
              rw [hnode₁]
              exact hdirs.isDir hdir)).mono ?_ fun e _ he => Or.inr ⟨he.1, fun hroom => ?_⟩
            on_goal 2 =>
              obtain ⟨-, k, n, -, hfull⟩ := he
              exact hfull (hpost₁.ok.cacheable_of_room ip hroom fun m hm => by
                rw [hview₁, View.setLocked_ref] at hm
                by_cases hne : m = ip
                · exact Or.inl hne
                · exact Or.inr (View.ref_addRef_of_ne v 1 hne ▸ hm))
            rw [hnode₁]
            rintro r fs₂ (⟨rfl, hnone, hfs₂⟩ | ⟨k, next, rfl, hfound, hpost₂⟩)
            · rw [hfs₂, hnone]
              simp only [wp_bind]
              refine (wp_iunlockput_idle hpost₁.ok hop₁ hview₁ (hidle ip)).imp ?_
              intro _ fs₂ hpost₂
              exact wp_pure.mpr ⟨rfl, hgiveUp fs₂ hpost₂⟩
            · have hview₂ : fs₂.view = ((v.addRef next 1).addRef ip 1).setLocked ip true := by
                rw [hpost₂.view, hview₁, View.addRef_comm v next ip]
                rfl
              have hop₂ : 0 < fs₂.outstanding := hpost₂.outstanding ▸ hop₁
              rw [hfound]
              simp only [wp_bind]
              refine (wp_iunlockput_idle hpost₂.ok hop₂ hview₂ ((hidle ip).addRef next)).imp ?_
              intro _ fs₃ hpost₃
              have hall := (hpost₁.trans hpost₂).trans hpost₃
              rw [Set.union_empty, Set.union_empty] at hall
              have hedge := Dirs.edge_of_lookup hdir hfound
              refine (ih hpost₃.ok (hpost₃.outstanding ▸ hop₂) hpost₃.view (hall.sb ▸ hdirs)
                (Dirs.pos_of_edge hedge) (hall.sb ▸ hdirs.inum ip next hedge) (by omega)).mono ?_ ?_
              · rintro r fs' ⟨hr, hpost'⟩
                have hfinal := hall.trans hpost'
                rw [Set.union_empty] at hfinal
                exact ⟨hr, hfinal⟩
              · rintro e _ (⟨he, n, hlocks, hzero⟩ | hfull)
                · exact Or.inl ⟨he, n, .next hskip hdir hfound hlocks, hzero⟩
                · exact Or.inr hfull
      · rintro e _ (⟨-, hl⟩ | ⟨he, hzero⟩)
        · rw [hview, View.addRef_locked, (hidle ip).unlocked] at hl
          cases hl
        · rw [hview] at hzero
          exact Or.inl ⟨he, ip, .here hskip, hzero⟩

/-- `namex` from a state in which no inode is locked. -/
theorem wp_namex {parent : Bool} {cwd : Nat} {path : Name} (h : Ok fs) (hop : 0 < fs.outstanding)
    (hidle : ∀ n, fs.view.Idle n) (hdirs : Dirs fs.view.node fs.sb.ninodes) (hpos : 0 < cwd)
    (hlt : cwd < fs.sb.ninodes) (href : 0 < fs.view.ref cwd) :
    Wp (namex cwd path parent) fs
      (fun r fs' => r = pathWalk fs.view.node cwd path parent ∧
        Post fs fs' (withResult fs.view r) ∅)
      (fun e _ => NamexPanic fs.view path (pathStart cwd path) e) := by
  have hloop : ∀ fs₁, Post fs fs₁ (fs.view.addRef (pathStart cwd path) 1) ∅ →
      0 < pathStart cwd path → pathStart cwd path < fs.sb.ninodes →
      Wp (namexLoop parent (path.length + 1) path (pathStart cwd path) []) fs₁
        (fun r fs' => r = pathWalk fs.view.node cwd path parent ∧
          Post fs fs' (withResult fs.view r) ∅)
        (fun e _ => NamexPanic fs.view path (pathStart cwd path) e) := by
    intro fs₁ hpost hpos hlt
    refine (wp_namexLoop hpost.ok (hpost.outstanding ▸ hop) hpost.view hidle (hpost.sb ▸ hdirs)
      hpos (hpost.sb ▸ hlt) (Nat.lt_succ_self _)).imp ?_
    rintro r fs' ⟨hr, hpost'⟩
    have hall := hpost.trans hpost'
    rw [Set.union_empty] at hall
    exact ⟨hr, hall⟩
  unfold namex
  split
  next hroot =>
    have hstart : pathStart cwd path = rootino := if_pos hroot
    rw [hstart] at hloop ⊢
    rw [wp_bind]
    refine (wp_iget h).mono ?_ fun e _ he => Or.inr ⟨he.1, fun hroom =>
      he.2 (h.cacheable_of_room rootino hroom fun _ => Or.inr)⟩
    intro _ fs₁ hpost
    exact hloop fs₁ hpost (by decide) h.core.wf.root
  next hrel =>
    have hstart : pathStart cwd path = cwd := if_neg hrel
    rw [hstart] at hloop ⊢
    rw [wp_bind]
    refine (wp_idup h href).imp ?_
    intro _ fs₁ hpost
    exact hloop fs₁ hpost hpos hlt

end Walk

end Fs

end Xv6
