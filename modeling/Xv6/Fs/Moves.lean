import Mathlib.Tactic
import Xv6.Fs.Files

/-!
# The moves of the file tree

Whatever a system call does to blocks, caches and logs, to the files and the references it does
a few simple things: a file is made, linked, unlinked or written, a reference is taken or
dropped.

Main definitions:

- {lit}`Move`: one change of the files and references.
- {lit}`Settled`: what holds of them between calls.

Main results:

- Theorem {lit}`Move.type_eq`: a file keeps its type as long as it is referenced.
- Theorem {lit}`Settled.moves`: moves lead from settled views to settled views.
-/

namespace Xv6

open Lib Function

namespace Fs

open Calls

/-- Something that happens to files and references, with `ninodes` inodes. -/
inductive Move (ninodes : Nat) : View → View → Prop
  | make {v : View} {dp ip : Nat} {name : Name} {type major minor : Nat}
      (hdp : 0 < dp ∧ dp < ninodes) (hdir : (v.node dp).IsDir)
      (habsent : (v.node dp).dir.lookup (canon name) = none) (hip : 0 < ip ∧ ip < ninodes)
      (hfree : (v.node ip).attr.type = 0) (htype : type ≠ 0) :
      Move ninodes v ((made v dp ip name type major minor).settle dp)
  | link {v : View} {dp ip : Nat} {name : Name} (hdp : 0 < dp ∧ dp < ninodes)
      (hdir : (v.node dp).IsDir) (habsent : (v.node dp).dir.lookup (canon name) = none)
      (hip : 0 < ip ∧ ip < ninodes) (htype : (v.node ip).attr.type ≠ 0)
      (hfile : (v.node ip).attr.type ≠ tDir) :
      Move ninodes v ((linkMade v dp ip name).settle ip)
  | unlink {v : View} {dp ip k : Nat} {a : Name} (hchild : Child v.node dp k a ip)
      (htype : (v.node ip).attr.type ≠ 0) (hnlink : ¬belowOne (v.node ip).attr.nlink)
      (hbare : (v.node ip).attr.type = tDir → Bare (v.node ip).dir) (hne : ip ≠ dp) :
      Move ninodes v (((removed v dp ip k).settle dp).settle ip)
  | write {v : View} {n : Nat} {x : Node} (hfile : (v.node n).attr.type ≠ tDir)
      (htype : x.attr.type = (v.node n).attr.type) (hnlink : x.attr.nlink = (v.node n).attr.nlink) :
      Move ninodes v (v.setNode n x)
  | take {v : View} {n : Nat} (hn : 0 < n ∧ n < ninodes) (htype : (v.node n).attr.type ≠ 0) :
      Move ninodes v (v.addRef n 1)
  | drop {v : View} {n : Nat} (href : 0 < v.ref n) :
      Move ninodes v ((v.addRef n (-1)).settle n)

/-- A directory has whole entries with inode numbers, and no name twice. -/
def DirOk (ninodes : Nat) (x : Node) : Prop :=
  x.attr.type = tDir → x.attr.size % direntSize = 0 ∧ x.dir.Distinct ∧
    ∀ k a m, x.dir.Holds k a m → m < ninodes

/-- The files and references between calls. -/
structure Settled (ninodes : Nat) (v : View) : Prop where
  unlocked : ∀ n, v.locked n = false
  nonneg : ∀ n, 0 ≤ v.ref n
  dirs : ∀ d, DirOk ninodes (v.node d)
  live : ∀ n, 0 < v.ref n → 0 < n ∧ n < ninodes ∧ (v.node n).attr.type ≠ 0

section Moves

variable {ninodes : Nat} {v v' : View}

/-! ## Directories -/

/-- Each directory on its own. -/
theorem dirs_of_dirOk {N : Nat → Node} (h : ∀ d, DirOk ninodes (N d)) : Dirs N ninodes where
  size d hd := (h d hd).1
  inum := by
    rintro d n ⟨hd, k, a, hholds⟩
    exact (h d hd).2.2 k a n hholds

/-- A file that is not a directory. -/
theorem DirOk.of_type {x : Node} (h : x.attr.type ≠ tDir) : DirOk ninodes x :=
  fun hd => absurd hd h

/-- The fields other than the contents do not matter. -/
theorem DirOk.setFields {x : Node} (h : DirOk ninodes x) (major minor nlink : Nat) :
    DirOk ninodes (x.setFields major minor nlink) := h

/-- One more entry. -/
theorem DirOk.linked {x : Node} (h : DirOk ninodes x) (hdir : x.IsDir) {name : Name} {inum : Nat}
    (habsent : x.dir.lookup (canon name) = none) (hinum : 0 < inum ∧ inum < ninodes)
    (hmax : ninodes ≤ 2 ^ 16) : DirOk ninodes (linked x name inum) := by
  intro _
  obtain ⟨-, hdistinct, hlt⟩ := h hdir.type
  refine ⟨(isDir_linked hdir name inum).size, ?_, fun k a m hholds => ?_⟩
  · rw [dir_linked hdir hinum.1 (hinum.2.trans_le hmax)]
    exact hdistinct.set_some Slots.free_le Slots.slot_free (Slots.lookup_eq_none.mp habsent)
  · rw [dir_linked hdir hinum.1 (hinum.2.trans_le hmax),
      Slots.holds_set_some Slots.free_le Slots.slot_free] at hholds
    rcases hholds with hholds | ⟨-, -, rfl⟩
    · exact hlt k a m hholds
    · exact hinum.2

/-- A new file. -/
theorem dirOk_newNode (type major minor : Nat) : DirOk ninodes (newNode type major minor) := by
  intro htype
  obtain rfl : type = tDir := htype
  have hnone : ∀ k a m, ¬(newNode tDir major minor).dir.Holds k a m := by
    rw [dir_newNode]
    exact fun k a m hholds => absurd hholds.1 (Nat.not_lt_zero k)
  exact ⟨(isDir_newNode major minor).size, fun j k a m m' hj => absurd hj (hnone j a m),
    fun k a m hholds => absurd hholds (hnone k a m)⟩

/-- A new directory. -/
theorem dirOk_newDir {major minor dp ip : Nat} (hdp : 0 < dp ∧ dp < ninodes)
    (hip : 0 < ip ∧ ip < ninodes) (hmax : ninodes ≤ 2 ^ 16) :
    DirOk ninodes (newDir major minor dp ip) := by
  exact ((dirOk_newNode tDir major minor).linked (isDir_newNode _ _) (lookup_newNode _) hip
    hmax).linked
    (isDir_linked (isDir_newNode _ _) _ _) (lookup_firstDot hip.1 (hip.2.trans_le hmax)) hdp hmax

/-- One entry less. -/
theorem DirOk.unlinked {x : Node} (h : DirOk ninodes x) (hdir : x.IsDir) {k : Nat}
    (hk : k < x.dir.len) (sub : Bool) : DirOk ninodes (unlinked x k sub) := by
  have hwrite : DirOk ninodes (x.writeEntry k (List.replicate direntSize 0)) := by
    intro _
    obtain ⟨-, hdistinct, hlt⟩ := h hdir.type
    refine ⟨Node.size_mod_writeEntry hdir.size, ?_⟩
    rw [Node.dir_write hdir.size hk.le (by simp), slotOfEntry_zero]
    refine ⟨hdistinct.set_none hk.le, fun j a m hholds => ?_⟩
    rw [Slots.holds_set_none hk.le] at hholds
    exact hlt j a m hholds.1
  cases sub with
  | true => exact hwrite.setFields _ _ _
  | false => exact hwrite

/-- A change of one file. -/
theorem dirOk_update {N : Nat → Node} {n : Nat} {x : Node} (h : ∀ d, DirOk ninodes (N d))
    (hx : DirOk ninodes x) (d : Nat) : DirOk ninodes (update N n x d) := by
  by_cases hd : d = n
  · rwa [hd, update_self]
  · rw [update_of_ne hd]
    exact h d

/-- A file that goes away. -/
theorem dirOk_settle (h : ∀ d, DirOk ninodes (v.node d)) (n d : Nat) :
    DirOk ninodes ((v.settle n).node d) := by
  unfold View.settle
  split
  · exact dirOk_update h (.of_type (by decide)) d
  · exact h d

/-- Directories stay well formed. -/
theorem Move.dirOk (h : Move ninodes v v') (hdirs : ∀ d, DirOk ninodes (v.node d))
    (hmax : ninodes ≤ 2 ^ 16) (d : Nat) : DirOk ninodes (v'.node d) := by
  cases h with
  | make hdp hdir habsent hip hfree htype =>
    rename_i dp ip name type major minor
    refine dirOk_settle (fun d => ?_) dp d
    unfold made
    split
    · refine dirOk_update (dirOk_update hdirs ?_) (dirOk_newDir hdp hip hmax) d
      exact ((hdirs dp).setFields _ _ _).linked (isDir_addLink hdir) habsent hip hmax
    · exact dirOk_update (dirOk_update hdirs ((hdirs dp).linked hdir habsent hip hmax))
        (dirOk_newNode _ _ _) d
  | link hdp hdir habsent hip htype hfile =>
    rename_i dp ip name
    exact dirOk_settle (dirOk_update (dirOk_update hdirs ((hdirs ip).setFields _ _ _))
      ((hdirs dp).linked hdir habsent hip hmax)) ip d
  | unlink hchild htype hnlink hbare hne =>
    rename_i dp ip k a
    have hdir : (v.node dp).IsDir := ⟨hchild.1, (hdirs dp hchild.1).1⟩
    exact dirOk_settle (dirOk_settle (dirOk_update (dirOk_update hdirs
      ((hdirs dp).unlinked hdir hchild.2.1.1 _)) ((hdirs ip).setFields _ _ _)) dp) ip d
  | write hfile htype hnlink => exact dirOk_update hdirs (.of_type (htype ▸ hfile)) d
  | take hn htype => exact hdirs d
  | drop href => exact dirOk_settle (v := v.addRef _ (-1)) hdirs _ d

/-! ## References -/

/-- Files with references do not go away. -/
theorem node_settle_of_ref {n m : Nat} (href : 0 < v.ref m) : (v.settle n).node m = v.node m := by
  by_cases hm : m = n
  · unfold View.settle
    rw [if_neg]
    rintro ⟨hzero, -⟩
    rw [hm] at href
    omega
  · exact View.node_settle_of_ne hm

/-- Calls leave no locks. -/
theorem Move.locked (h : Move ninodes v v') : v'.locked = v.locked := by
  cases h with
  | make => rw [View.locked_settle, locked_made]
  | link => rw [View.locked_settle]; rfl
  | unlink => rw [View.locked_settle, View.locked_settle]; rfl
  | write => rfl
  | take => rfl
  | drop => rw [View.locked_settle]; rfl

/-- Apart from the two kinds of moves that are about references, these stay as they are. -/
theorem Move.ref (h : Move ninodes v v') : v'.ref = v.ref ∨
    (∃ n, v'.ref = (v.addRef n 1).ref ∧ 0 < n ∧ n < ninodes ∧ (v.node n).attr.type ≠ 0) ∨
    ∃ n, v'.ref = (v.addRef n (-1)).ref ∧ 0 < v.ref n := by
  cases h with
  | make => exact Or.inl (by rw [View.ref_settle, ref_made])
  | link => exact Or.inl (by rw [View.ref_settle]; rfl)
  | unlink => exact Or.inl (by rw [View.ref_settle, View.ref_settle]; rfl)
  | write => exact Or.inl rfl
  | take hn htype => exact Or.inr (Or.inl ⟨_, rfl, hn.1, hn.2, htype⟩)
  | drop href => exact Or.inr (Or.inr ⟨_, by rw [View.ref_settle], href⟩)

/-- A change that keeps the type. -/
theorem type_update {N : Nat → Node} {n : Nat} {x : Node} (h : x.attr.type = (N n).attr.type)
    (m : Nat) : (update N n x m).attr.type = (N m).attr.type := by
  by_cases hm : m = n
  · rw [hm, update_self, h]
  · rw [update_of_ne hm]

/-- The fields do not matter. -/
theorem type_setFields (x : Node) (major minor nlink : Nat) :
    (x.setFields major minor nlink).attr.type = x.attr.type := rfl

/-- The entries do not matter. -/
theorem type_unlinked (x : Node) (k : Nat) (sub : Bool) :
    (unlinked x k sub).attr.type = x.attr.type := by
  cases sub with
  | true => exact type_setFields _ _ _ _
  | false => rfl

/-- The type of an inode that is in use changes only when it has no references. -/
theorem Move.type_eq (h : Move ninodes v v') {n : Nat} (htype : (v.node n).attr.type ≠ 0)
    (href : 0 < v'.ref n) : (v'.node n).attr.type = (v.node n).attr.type := by
  cases h with
  | make hdp hdir habsent hip hfree hmade =>
    rename_i dp ip name type major minor
    rw [View.ref_settle] at href
    rw [node_settle_of_ref href]
    have hne : n ≠ ip := by
      rintro rfl
      exact htype hfree
    have hother : ∀ x y : Node, x.attr.type = (v.node dp).attr.type →
        (((v.setNode dp x).setNode ip y).node n).attr.type = (v.node n).attr.type := by
      intro x y hx
      exact (congrArg (fun x : Node => x.attr.type) (update_of_ne hne _ _)).trans
        (type_update hx n)
    unfold made
    split
    · exact hother _ _ rfl
    · exact hother _ _ rfl
  | link hdp hdir habsent hip hused hfile =>
    rename_i dp ip name
    rw [View.ref_settle] at href
    rw [node_settle_of_ref href]
    have hfirst : ∀ m, (update v.node ip (addLink (v.node ip)) m).attr.type =
        (v.node m).attr.type := type_update (type_setFields _ _ _ _)
    have hsecond : (linked (v.node dp) name ip).attr.type = (v.node dp).attr.type := rfl
    exact (type_update (hsecond.trans (hfirst dp).symm) n).trans (hfirst n)
  | unlink hchild hused hnlink hbare hne =>
    rename_i dp ip k a
    rw [View.ref_settle] at href
    rw [node_settle_of_ref href]
    rw [View.ref_settle] at href
    rw [node_settle_of_ref href]
    have hfirst := type_update (type_unlinked (v.node dp) k ((v.node ip).attr.type = tDir))
    have hsecond : (dropLink (v.node ip)).attr.type = (v.node ip).attr.type :=
      type_setFields _ _ _ _
    exact (type_update (hsecond.trans (hfirst ip).symm) n).trans (hfirst n)
  | write hfile hsame hlink => exact type_update hsame n
  | take => rfl
  | drop hdrop =>
    rw [View.ref_settle] at href
    rw [node_settle_of_ref href]
    rfl

/-- References stay nonnegative. -/
theorem Move.nonneg (h : Move ninodes v v') (hnonneg : ∀ n, 0 ≤ v.ref n) (n : Nat) :
    0 ≤ v'.ref n := by
  rcases h.ref with href | ⟨m, href, -⟩ | ⟨m, href, hpos⟩
  · rw [href]
    exact hnonneg n
  all_goals
    rw [href]
    obtain rfl | hn := eq_or_ne n m
    · rw [View.ref_addRef_self]
      have := hnonneg n
      omega
    · rw [View.ref_addRef_of_ne _ _ hn]
      exact hnonneg n

/-- The step lemma. -/
theorem Settled.move (h : Settled ninodes v) (hmax : ninodes ≤ 2 ^ 16) (hmove : Move ninodes v v') :
    Settled ninodes v' where
  unlocked n := by
    rw [hmove.locked]
    exact h.unlocked n
  nonneg := hmove.nonneg h.nonneg
  dirs := hmove.dirOk h.dirs hmax
  live n hn := by
    by_cases hold : 0 < v.ref n
    · obtain ⟨hpos, hlt, htype⟩ := h.live n hold
      exact ⟨hpos, hlt, by rwa [hmove.type_eq htype hn]⟩
    · rcases hmove.ref with href | ⟨m, href, hpos, hlt, htype⟩ | ⟨m, href, hpos⟩
      · exact absurd (href ▸ hn) hold
      · obtain rfl : n = m := by
          by_contra hne
          rw [href, View.ref_addRef_of_ne _ _ hne] at hn
          exact hold hn
        exact ⟨hpos, hlt, by rwa [hmove.type_eq htype hn]⟩
      · have hne : n ≠ m := by
          rintro rfl
          exact hold hpos
        rw [href, View.ref_addRef_of_ne _ _ hne] at hn
        exact absurd hn hold

/-- Any number of moves. -/
def Moves (ninodes : Nat) : View → View → Prop :=
  Relation.ReflTransGen (Move ninodes)

/-- The run lemma. -/
theorem Settled.moves (h : Settled ninodes v) (hmax : ninodes ≤ 2 ^ 16)
    (hmoves : Moves ninodes v v') : Settled ninodes v' := by
  induction hmoves with
  | refl => exact h
  | tail _ hmove ih => exact ih.move hmax hmove

end Moves

end Fs
end Xv6
