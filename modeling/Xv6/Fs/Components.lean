import Mathlib.Tactic
import Xv6.Fs.Image

/-!
# The components of a path

A path is a list of components between slashes.  `namex` follows them one after the other,
however many slashes there are, and looks at the first bytes of each.

Main results:

- Theorem {lit}`skipelem_eq`: `skipelem` takes the first component off a path.
- Theorem {lit}`walk_descend`, {lit}`walk_parent`: `namex` folds `dirlookup` over the
  components.
- Theorem {lit}`path_resolution`: `namei` and `nameiparent` return what the components lead
  to, with one reference, or panic over an inode on the way or a full cache.
-/

namespace Xv6

open Lib

namespace Calls

/-- The maximal parts of a path without a slash. -/
def components (path : Name) : List Name := (path.splitOn 47).filter fun c => c ≠ []

/-- Look up one component after the other, from inode `ip` on. -/
def descend (N : Nat → Node) : (ip : Nat) → List Name → Option Nat
  | ip, [] => some ip
  | ip, c :: cs =>
    if (N ip).attr.type ≠ tDir then none
    else
      match (N ip).dir.lookup (canon c) with
      | none => none
      | some (_, next) => descend N next cs

section Components

variable {path name rest : Name}

/-- The empty path has no component. -/
@[simp] theorem components_nil : components [] = [] := rfl

/-- Slashes in front do not matter. -/
theorem components_slash (path : Name) : components (47 :: path) = components path := by
  unfold components
  rw [List.splitOn_cons_eq_if_modifyHead, if_pos (by decide)]
  rfl

/-- The path after its leading slashes. -/
theorem components_dropWhile (path : Name) :
    components (path.dropWhile (· = 47)) = components path := by
  induction path with
  | nil => rfl
  | cons c path ih =>
    by_cases hc : c = 47
    · rw [List.dropWhile_cons_of_pos (by simpa using hc), ih, hc, components_slash]
    · rw [List.dropWhile_cons_of_neg (by simpa using hc)]

/-- A component at the end. -/
theorem components_last {c : Name} (hc : c ≠ []) (hslash : 47 ∉ c) : components c = [c] := by
  unfold components
  rw [List.splitOn_eq_singleton hslash]
  simp [hc]

/-- A component in front of a slash. -/
theorem components_append {c : Name} (hc : c ≠ []) (hslash : 47 ∉ c) (rest : Name) :
    components (c ++ 47 :: rest) = c :: components rest := by
  unfold components
  rw [List.splitOn_append_cons_self_of_not_mem hslash]
  simp [hc]

/-- A component added to a path. -/
theorem components_snoc {c : Name} (hc : c ≠ []) (hslash : 47 ∉ c) (path : Name) :
    components (path ++ 47 :: c) = components path ++ [c] := by
  unfold components
  rw [List.splitOn_append_cons_self, List.splitOn_eq_singleton hslash, List.filter_append]
  simp [hc]

/-- A path that does not begin with a slash begins with a component. -/
theorem components_cons {a : UInt8} (ha : a ≠ 47) (path : Name) :
    components (a :: path) = (a :: path).takeWhile (· ≠ 47) ::
      components ((a :: path).dropWhile (· ≠ 47)) := by
  have hne : (a :: path).takeWhile (· ≠ 47) ≠ [] := by
    rw [List.takeWhile_cons_of_pos (by simpa using ha)]
    exact List.cons_ne_nil _ _
  have hslash : 47 ∉ (a :: path).takeWhile (· ≠ 47) := fun hmem => by
    simpa using List.mem_takeWhile_imp hmem
  have hsplit : (a :: path).takeWhile (· ≠ 47) ++ (a :: path).dropWhile (· ≠ 47) = a :: path :=
    List.takeWhile_append_dropWhile
  cases hafter : (a :: path).dropWhile (· ≠ 47) with
  | nil =>
    rw [hafter, List.append_nil] at hsplit
    rw [hsplit] at hne hslash ⊢
    exact components_last hne hslash
  | cons b rest =>
    have hb : b = 47 := by
      have hhead := List.head?_dropWhile_not (· ≠ 47) (a :: path)
      rw [hafter] at hhead
      simpa using hhead
    rw [hafter, hb] at hsplit
    rw [hb, components_slash, ← components_append hne hslash, hsplit]

/-- `skipelem` takes the first component off. -/
theorem skipelem_eq (path : Name) :
    (skipelem path = none ∧ components path = []) ∨
    ∃ c rest, skipelem path = some (c.take dirsiz, rest) ∧
      components path = c :: components rest ∧ (rest = [] ↔ components rest = []) := by
  unfold skipelem
  rw [← components_dropWhile path]
  -- a path without its leading slashes is empty or begins with another byte
  have hhead := List.head?_dropWhile_not (· = 47) path
  cases hpath : path.dropWhile (· = 47) with
  | nil => exact Or.inl ⟨if_pos rfl, rfl⟩
  | cons a path' =>
    rw [hpath] at hhead
    have ha : a ≠ 47 := by simpa using hhead
    refine Or.inr ⟨_, _, if_neg (List.cons_ne_nil _ _), ?_, ?_⟩
    · rw [components_dropWhile, components_cons ha]
    · have hhead' := List.head?_dropWhile_not (· = 47) ((a :: path').dropWhile (· ≠ 47))
      cases hrest : ((a :: path').dropWhile (· ≠ 47)).dropWhile (· = 47) with
      | nil => exact iff_of_true rfl rfl
      | cons b rest =>
        rw [hrest] at hhead'
        have hb : b ≠ 47 := by simpa using hhead'
        rw [components_cons hb]
        exact iff_of_false (List.cons_ne_nil _ _) (List.cons_ne_nil _ _)

end Components

section Walk

variable {N : Nat → Node} {fuel ip : Nat} {path name : Name}

/-- The name that the last component leaves in the buffer, or what was in it. -/
def lastName (name : Name) (cs : List Name) : Name :=
  (cs.getLast?.map fun c => c.take dirsiz).getD name

/-- The first component is in the buffer when the others are followed. -/
theorem lastName_cons (name c : Name) (cs : List Name) :
    lastName name (c :: cs) = lastName (c.take dirsiz) cs := by
  unfold lastName
  cases hcs : cs.getLast? with
  | none =>
    rw [List.getLast?_eq_none_iff.mp hcs]
    rfl
  | some last =>
    rw [List.getLast?_cons, hcs]
    rfl

/-- `namei` follows all components. -/
theorem walk_descend (hfuel : path.length < fuel) :
    walk N false fuel path ip name =
      (descend N ip (components path)).map fun n => (n, lastName name (components path)) := by
  induction fuel generalizing path ip name with
  | zero => exact absurd hfuel (Nat.not_lt_zero _)
  | succ fuel ih =>
    rw [walk]
    rcases skipelem_eq path with ⟨hskip, hnone⟩ | ⟨c, rest, hskip, hsome, -⟩
    · rw [hskip, hnone]
      rfl
    · have hshort := length_skipelem hskip
      rw [hskip, hsome, lastName_cons, descend]
      simp only [canon_take, Bool.false_eq_true, false_and, if_false]
      split
      next => rfl
      next =>
        cases (N ip).dir.lookup (canon c) with
        | none => rfl
        | some e => exact ih (by omega)

/-- `nameiparent` follows all components but the last. -/
theorem walk_parent (hfuel : path.length < fuel) :
    walk N true fuel path ip name =
      if components path = [] then none
      else (descend N ip (components path).dropLast).bind fun n =>
        if (N n).attr.type = tDir then some (n, lastName name (components path)) else none := by
  induction fuel generalizing path ip name with
  | zero => exact absurd hfuel (Nat.not_lt_zero _)
  | succ fuel ih =>
    rw [walk]
    rcases skipelem_eq path with ⟨hskip, hnone⟩ | ⟨c, rest, hskip, hsome, hrest⟩
    · rw [hskip, hnone]
      rfl
    · have hshort := length_skipelem hskip
      rw [hskip, hsome, lastName_cons, if_neg (List.cons_ne_nil _ _)]
      simp only [canon_take, true_and, hrest]
      by_cases hlast : components rest = []
      · rw [hlast]
        simp only [if_true, List.dropLast_singleton, descend, Option.bind_some, ite_not]
        rfl
      · rw [List.dropLast_cons_of_ne_nil hlast, descend]
        simp only [hlast, if_false]
        split
        next => rfl
        next =>
          cases (N ip).dir.lookup (canon c) with
          | none => rfl
          | some e => exact (ih (by omega)).trans (if_neg hlast)

end Walk

/-- Following some components and then others. -/
theorem descend_append (N : Nat → Node) (ip : Nat) (cs cs' : List Name) :
    descend N ip (cs ++ cs') = (descend N ip cs).bind fun n => descend N n cs' := by
  induction cs generalizing ip with
  | nil => rfl
  | cons c cs ih =>
    rw [List.cons_append, descend, descend]
    split
    next => rfl
    next =>
      cases (N ip).dir.lookup (canon c) with
      | none => rfl
      | some e => exact ih e.2

/-- What `namei` computes. -/
theorem pathWalk_namei (N : Nat → Node) (cwd : Nat) (path : Name) :
    (pathWalk N cwd path false).map Prod.fst =
      descend N (pathStart cwd path) (components path) := by
  rw [pathWalk, walk_descend (Nat.lt_succ_self _), Option.map_map]
  exact Option.map_id'

/-- What `nameiparent` computes: where all components but the last lead, and the last one. -/
def descendParent (N : Nat → Node) (ip : Nat) (cs : List Name) : Option (Nat × Name) :=
  if cs = [] then none
  else (descend N ip cs.dropLast).bind fun n =>
    if (N n).attr.type = tDir then some (n, lastName [] cs) else none

/-- A path leads nowhere if a component is looked up in what is no directory or lacks it. -/
theorem descend_eq_none_iff {N : Nat → Node} {ip : Nat} {cs : List Name} :
    descend N ip cs = none ↔ ∃ front c back n, cs = front ++ c :: back ∧
      descend N ip front = some n ∧
        ((N n).attr.type ≠ tDir ∨ (N n).dir.lookup (canon c) = none) := by
  constructor
  · intro h
    induction cs generalizing ip with
    | nil => cases h
    | cons c cs ih =>
      rw [descend] at h
      by_cases hdir : (N ip).attr.type = tDir
      · cases hfound : (N ip).dir.lookup (canon c) with
        | none => exact ⟨[], c, cs, ip, rfl, rfl, Or.inr hfound⟩
        | some e =>
          rw [if_neg (not_not.mpr hdir), hfound] at h
          obtain ⟨front, d, back, n, rfl, hfront, hwhy⟩ := ih h
          refine ⟨c :: front, d, back, n, rfl, ?_, hwhy⟩
          rw [descend, if_neg (not_not.mpr hdir), hfound]
          exact hfront
      · exact ⟨[], c, cs, ip, rfl, rfl, Or.inl hdir⟩
  · rintro ⟨front, c, back, n, rfl, hfront, hwhy⟩
    rw [descend_append, hfront, Option.bind_some, descend]
    rcases hwhy with hdir | hnone
    · rw [if_pos hdir]
    · rw [hnone]
      exact ite_self none

/-- The inode that a path gets to lock is where some of its components lead, with another one
behind them. -/
theorem Locks.descend {N : Nat → Node} {path : Name} {ip n : Nat} (h : Locks N path ip n) :
    ∃ front c back, components path = front ++ c :: back ∧ descend N ip front = some n := by
  induction h with
  | @here path ip e hskip =>
    rcases skipelem_eq path with ⟨hnone, -⟩ | ⟨c, rest, -, hsome, -⟩
    · rw [hskip] at hnone
      cases hnone
    · exact ⟨[], c, components rest, hsome, rfl⟩
  | @next path name rest ip k m n hskip hdir hfound _ ih =>
    obtain ⟨front, c, back, hrest, hfront⟩ := ih
    rcases skipelem_eq path with ⟨hnone, -⟩ | ⟨d, rest', hskip', hsome, -⟩
    · rw [hskip] at hnone
      cases hnone
    · rw [hskip, Option.some.injEq, Prod.mk.injEq] at hskip'
      obtain ⟨rfl, rfl⟩ := hskip'
      rw [canon_take] at hfound
      refine ⟨d :: front, c, back, by rw [hsome, hrest]; rfl, ?_⟩
      rw [Calls.descend, if_neg (not_not.mpr hdir), hfound]
      exact hfront

/-- A component without a zero is cut to its first bytes. -/
theorem canon_of_notMem {c : Name} (hnul : 0 ∉ c) : canon c = c.take dirsiz := by
  rw [canon, ← List.append_nil c, List.takeWhile_append_of_pos]
  · simp
  · intro x hx
    apply decide_eq_true
    rintro rfl
    exact hnul hx

/-- The bytes of a component are bytes of the path. -/
theorem mem_of_mem_splitOn {path c : Name} {x : UInt8} (hc : c ∈ path.splitOn 47) (hx : x ∈ c) :
    x ∈ path := by
  induction path generalizing c with
  | nil =>
    rw [List.mem_singleton.mp hc] at hx
    exact hx
  | cons a path ih =>
    rw [List.splitOn_cons_eq_if_modifyHead] at hc
    split at hc
    next =>
      rcases List.mem_cons.mp hc with rfl | hc
      · exact absurd hx List.not_mem_nil
      · exact List.mem_cons_of_mem a (ih hc hx)
    next =>
      cases hsplit : path.splitOn 47 with
      | nil =>
        rw [hsplit] at hc
        exact absurd hc List.not_mem_nil
      | cons d ds =>
        rw [hsplit] at hc ih
        rcases List.mem_cons.mp hc with rfl | hc
        · exact List.mem_cons.mpr ((List.mem_cons.mp hx).imp_right (ih List.mem_cons_self))
        · exact List.mem_cons_of_mem a (ih (List.mem_cons_of_mem d hc) hx)

/-- The components of a C string are C strings. -/
theorem notMem_component {path c : Name} (hnul : 0 ∉ path) (hc : c ∈ components path) : 0 ∉ c :=
  fun hmem => hnul (mem_of_mem_splitOn (List.mem_filter.mp hc).1 hmem)

end Calls

namespace Fs

open Calls

section Resolution

variable {fs : Fs} {cwd : Nat} {path : Name}

/-- What makes the resolution of a path panic: the inode that some components of the path lead
to, in which the next one has to be looked up, is free; or the inode cache does not have room
for two more inodes. -/
def ResolutionPanic (v : View) (start : Nat) (cs : List Name) (e : String) : Prop :=
  (e = "ilock: no type" ∧ ∃ front c back n, cs = front ++ c :: back ∧
    descend v.node start front = some n ∧ (v.node n).attr.type = 0) ∨
  (e = "iget: no inodes" ∧ ¬Room v)

/-- `namei` and `nameiparent` return what the components of the path lead to, with one new
reference to it, and change nothing else; or they panic, because an inode on the way is free
or the inode cache is full. -/
theorem path_resolution (h : Ok fs) (hop : 0 < fs.outstanding)
    (hunlocked : ∀ n, fs.view.locked n = false) (hdirs : Dirs fs.view.node fs.sb.ninodes)
    (hcwd : 0 < cwd ∧ cwd < fs.sb.ninodes ∧ 0 < fs.view.ref cwd) (hnul : 0 ∉ path) :
    Wp (namei cwd path) fs
      (fun r fs' => r = descend fs.view.node (pathStart cwd path) (components path) ∧
        Post fs fs' (r.elim fs.view fun n => fs.view.addRef n 1) ∅)
      (fun e _ => ResolutionPanic fs.view (pathStart cwd path) (components path) e) ∧
    Wp (nameiparent cwd path) fs
      (fun r fs' => r = descendParent fs.view.node (pathStart cwd path) (components path) ∧
        Post fs fs' (r.elim fs.view fun e => fs.view.addRef e.1 1) ∅)
      (fun e _ => ResolutionPanic fs.view (pathStart cwd path) (components path) e) ∧
    (∀ ip cs, descend fs.view.node ip cs = none ↔ ∃ front c back n, cs = front ++ c :: back ∧
      descend fs.view.node ip front = some n ∧
        ((fs.view.node n).attr.type ≠ tDir ∨ (fs.view.node n).dir.lookup (canon c) = none)) ∧
    ∀ c ∈ components path, canon c = c.take dirsiz := by
  have hpanic : ∀ e, NamexPanic fs.view path (pathStart cwd path) e →
      ResolutionPanic fs.view (pathStart cwd path) (components path) e := by
    rintro e (⟨he, n, hlocks, hfree⟩ | hfull)
    · obtain ⟨front, c, back, hcs, hfront⟩ := hlocks.descend
      exact Or.inl ⟨he, front, c, back, n, hcs, hfront, hfree⟩
    · exact Or.inr hfull
  have hnamex := fun parent => (@wp_namex fs parent cwd path h hop
    (fun n => h.idle (hunlocked n)) hdirs hcwd.1 hcwd.2.1 hcwd.2.2).mono (fun _ _ => id)
      fun e _ => hpanic e
  refine ⟨?_, (hnamex true).imp ?_, fun ip cs => descend_eq_none_iff, fun c hc =>
    canon_of_notMem (notMem_component hnul hc)⟩
  · refine (hnamex false).bind ?_
    rintro r fs' ⟨hr, hpost⟩
    refine wp_pure.mpr ⟨?_, ?_⟩
    · rw [hr, pathWalk_namei]
    · cases r with
      | none => exact hpost
      | some e => exact hpost
  · rintro r fs' ⟨hr, hpost⟩
    refine ⟨?_, hpost⟩
    rw [hr, pathWalk, walk_parent (Nat.lt_succ_self _)]
    rfl

end Resolution

/-- The path `./..`, on an image with nothing but the root directory. -/
theorem path_resolution_tiny : ∃ fs', namei rootino [46, 47, 46, 46] Tiny.fs =
    .ok (some rootino) fs' ∧ Post Tiny.fs fs' (Tiny.fs.view.addRef rootino 1) ∅ := by
  have hspec := (@path_resolution Tiny.fs rootino [46, 47, 46, 46] Tiny.ok_fs (by decide)
    (fun _ => rfl) Tiny.image_tinyDisk.dirs ⟨by decide, by decide, by decide⟩ (by decide)).1
  have hres : outcome (namei rootino [46, 47, 46, 46]) Tiny.fs = .ok (some rootino) := by
    decide +kernel
  obtain ⟨fs', hrun⟩ := exists_ok hres
  exact ⟨fs', hrun, (hspec.of_ok hrun).2⟩

end Fs

end Xv6
