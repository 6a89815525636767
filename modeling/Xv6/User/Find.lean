import Mathlib.Tactic
import Xv6.Lib.Cstring
import Xv6.Fs.Components

/-!
# `find`

`find` goes through a directory tree.  It builds the path of an entry in an array on its
stack, behind the path of the directory, by copying the name field of the entry, which need
not be terminated, and opens what it has built.  The files are those of a table of inodes,
and a path is resolved as the kernel does it.

Main results:

- Theorem {lit}`find_of_short`: `find` prints the files with the target's name if every name
  leaves room for a terminator and their paths can be opened.
- Theorem {lit}`find_right_iff`: only then is the outcome right whatever is on the stack.
-/

namespace Xv6
namespace Find

open List Lib Calls Function

/-- `sizeof buf`. -/
def bufBytes : Nat := 512

/-- `MAXPATH`. -/
def maxpath : Nat := 128

/-! ## The program -/

/-- `get_file_name`: what follows the last slash of a path. -/
def getFileName (path : Name) : Name := (path.reverse.takeWhile (· ≠ 47)).reverse

/-- The inode that `open(path, 0)` opens.  `argstr` in `sys_open` wants the terminator among the
first `MAXPATH` bytes. -/
def openPath (N : Nat → Node) (cwd : Nat) (path : Name) : Option Nat :=
  if path.length < maxpath then (pathWalk N cwd path false).map Prod.fst else none

/-- The loop over the entries of a directory `x`, of which `todo` are left.  `call` is the
recursive call; the name of an entry goes to index `p` of the array. -/
def entries (call : Nat → Name → Option (List Name)) (x : Node) (p : Nat) :
    (todo k : Nat) → (buf : Nat → UInt8) → Option (List Name)
  | 0, _, _ => some []
  | todo + 1, k, buf =>
    let de := x.entry k
    if direntInum de = 0 then entries call x p todo (k + 1) buf
    else if canon (direntName de) = dot ∨ canon (direntName de) = dotdot then
      entries call x p todo (k + 1) buf
    else if p + dirsiz ≤ bufBytes then
      let buf := store buf p (direntName de)
      match cstr buf bufBytes 0 with
      | none => none
      | some path =>
        match call k path with
        | none => none
        | some out => (entries call x p todo (k + 1) buf).map (out ++ ·)
    else none

/-- `find(path, target)`: the lines that it prints, or nothing if it writes or reads outside
its arrays.  `site` says which call this is, as the indices of the entries that led to it, and
`junk` what its array `buf` holds at first. -/
def find (N : Nat → Node) (cwd : Nat) (target : Name) (junk : List Nat → Nat → UInt8) :
    (fuel : Nat) → (site : List Nat) → (path : Name) → Option (List Name)
  | 0, _, _ => none
  | fuel + 1, site, path =>
    match openPath N cwd path with
    | none => some []
    | some n =>
      if (N n).attr.type = tFile then
        -- `file_name` has no room for a terminator behind `DIRSIZ` bytes
        if (getFileName path).length < dirsiz then
          some (if getFileName path = target then [path] else [])
        else none
      else if (N n).attr.type = tDir then
        if path.length < bufBytes then
          let buf := update (store (junk site) 0 (path ++ [0])) path.length 47
          entries (fun k path => find N cwd target junk fuel (k :: site) path) (N n)
            (path.length + 1) (N n).dir.len 0 buf
        else none
      else some []

/-! ## What it is to print -/

/-- The entries that lead to the directory itself and to its parent. -/
def Dots (name : Name) : Prop := name = dot ∨ name = dotdot

/-- The test is decidable. -/
instance (name : Name) : Decidable (Dots name) := inferInstanceAs (Decidable (_ ∨ _))

/-- The regular files that an entry leads to, with their paths and last components; `below` is
for directories. -/
def filesOf (N : Nat → Node) (path : Name) (below : Nat → Name → List (Name × Name)) :
    Option (Name × Nat) → List (Name × Name)
  | none => []
  | some (name, m) =>
    if Dots name then []
    else if (N m).attr.type = tFile then [(path ++ 47 :: name, name)]
    else if (N m).attr.type = tDir then below m (path ++ 47 :: name)
    else []

/-- The regular files of a tree of height at most `h`, in the order of the directories. -/
def files (N : Nat → Node) : (h n : Nat) → (path : Name) → List (Name × Name)
  | 0, _, _ => []
  | h + 1, n, path =>
    (range (N n).dir.len).flatMap fun k => filesOf N path (files N h) ((N n).dir.slot k)

/-- The paths of the files with a name. -/
def named (target : Name) (fs : List (Name × Name)) : List Name :=
  (fs.filter fun f => f.2 = target).map Prod.fst

/-- Inode `n`, whose path has `len` bytes, is the top of a directory tree of height at most
`h`: every entry has a name of its own, leads to a file, and the paths are short. -/
def IsTree (N : Nat → Node) : (h n len : Nat) → Prop
  | 0, _, _ => False
  | h + 1, n, len =>
    (N n).attr.type = tDir ∧ len < bufBytes - dirsiz - 2 ∧
      ∀ k a m, (N n).dir.Holds k a m → ¬Dots a →
        a ≠ [] ∧ 47 ∉ a ∧ (N n).dir.lookup a = some (k, m) ∧ (N m).attr.type ≠ 0 ∧
        len + 1 + a.length < bufBytes - dirsiz - 2 ∧
        ((N m).attr.type = tDir → IsTree N h m (len + 1 + a.length))

/-- Every name in a directory that can be opened is shorter than the field it is stored in. -/
def Short (N : Nat → Node) : (h n len : Nat) → Prop
  | 0, _, _ => True
  | h + 1, n, len => len < maxpath →
    ∀ k a m, (N n).dir.Holds k a m → ¬Dots a →
      a.length < dirsiz ∧ ((N m).attr.type = tDir → Short N h m (len + 1 + a.length))

/-- The paths that are to be printed can be opened. -/
def Openable (paths : List Name) : Prop := ∀ path ∈ paths, path.length < maxpath

/-! ## Names and paths -/

section Names

variable {raw a path : Name}

/-- The last component of a path. -/
theorem getFileName_snoc (hslash : 47 ∉ a) (path : Name) : getFileName (path ++ 47 :: a) = a := by
  unfold getFileName
  have hstop : ∀ x ∈ a.reverse, decide (x ≠ 47) = true := fun x hx => by
    apply decide_eq_true
    rintro rfl
    exact hslash (mem_reverse.mp hx)
  rw [reverse_append, reverse_cons, append_assoc,
    takeWhile_append_of_pos hstop]
  simp

/-- A stored name has no zero. -/
theorem notMem_canon (s : Name) : 0 ∉ canon s := fun hmem => by
  simpa using mem_takeWhile_imp (mem_of_mem_take hmem)

/-- A stored name is stored as it is. -/
theorem canon_canon (s : Name) : canon (canon s) = canon s := by
  have hall : (canon s).takeWhile (· ≠ 0) = canon s := by
    rw [← append_nil (canon s), takeWhile_append_of_pos]
    · simp
    · intro x hx
      apply decide_eq_true
      rintro rfl
      exact notMem_canon s hx
  rw [canon, hall, canon, take_take, min_self]

/-- A short name in its field is terminated. -/
theorem raw_of_short (hraw : canon raw = a) (hlen : raw.length = dirsiz)
    (hshort : a.length < dirsiz) : ∃ more, raw = a ++ 0 :: more := by
  have hsplit : raw.takeWhile (· ≠ 0) ++ raw.dropWhile (· ≠ 0) = raw :=
    takeWhile_append_dropWhile
  have ha : raw.takeWhile (· ≠ 0) = a := by
    rw [← hraw, canon, take_of_length_le]
    rw [← hlen]
    exact (takeWhile_sublist _).length_le
  rw [ha] at hsplit
  cases hrest : raw.dropWhile (· ≠ 0) with
  | nil =>
    rw [hrest, append_nil] at hsplit
    rw [hsplit] at hshort
    omega
  | cons b more =>
    have hb : b = 0 := by
      have hhead := head?_dropWhile_not (· ≠ 0) raw
      rw [hrest] at hhead
      simpa using hhead
    exact ⟨more, by rw [← hsplit, hrest, hb]⟩

/-- A name that fills its field. -/
theorem raw_of_full (hraw : canon raw = a) (hlen : raw.length = dirsiz)
    (hfull : ¬a.length < dirsiz) : raw = a := by
  have hstart : a <+: raw := by
    rw [← hraw, canon]
    exact (List.take_prefix _ _).trans (List.takeWhile_prefix _)
  exact (hstart.eq_of_length (by have := hstart.length_le; omega)).symm

end Names

/-- Opening an entry of a directory. -/
theorem open_entry {N : Nat → Node} {cwd n k m : Nat} {path a : Name} (hpath : path ≠ [])
    (hopen : (pathWalk N cwd path false).map Prod.fst = some n)
    (hdir : (N n).attr.type = tDir) (hne : a ≠ []) (hslash : 47 ∉ a) (hcanon : canon a = a)
    (hfound : (N n).dir.lookup a = some (k, m)) :
    (pathWalk N cwd (path ++ 47 :: a) false).map Prod.fst = some m := by
  have hstart : pathStart cwd (path ++ 47 :: a) = pathStart cwd path := by
    obtain ⟨b, path, rfl⟩ := exists_cons_of_ne_nil hpath
    rfl
  rw [pathWalk_namei] at hopen
  rw [pathWalk_namei, hstart, components_snoc hne hslash, descend_append, hopen, Option.bind_some,
    descend, if_neg (not_not.mpr hdir), hcanon, hfound]
  rfl

/-! ## The array -/

section Entries

variable {x : Node} {path : Name} {k : Nat} {a : Name} {m : Nat} {buf : Nat → UInt8}

/-- The bytes of an entry. -/
theorem entry_of_holds (h : x.dir.Holds k a m) :
    direntInum (x.entry k) = m ∧ m ≠ 0 ∧ canon (direntName (x.entry k)) = a ∧
      (direntName (x.entry k)).length = dirsiz := by
  obtain ⟨hk, hslot⟩ := h
  rw [Node.slot_dir hk, slotOfEntry] at hslot
  have hlen : (direntName (x.entry k)).length = dirsiz := by
    simp [direntName, Node.entry, direntSize, dirsiz]
  split at hslot
  next => cases hslot
  next hne =>
    rw [Option.some.injEq, Prod.mk.injEq] at hslot
    exact ⟨hslot.2, hslot.2 ▸ hne, hslot.1, hlen⟩

/-- The bytes of a slot without an entry. -/
theorem entry_of_empty (hk : k < x.dir.len) (hslot : x.dir.slot k = none) :
    direntInum (x.entry k) = 0 := by
  rw [Node.slot_dir hk, slotOfEntry] at hslot
  by_contra hne
  rw [if_neg hne] at hslot
  cases hslot

/-- A name that leaves room for a terminator gives the path of the entry. -/
theorem cstr_of_short (h : x.dir.Holds k a m) (hpath : 0 ∉ path)
    (hbuf : Holds buf 0 (path ++ [47])) (hshort : a.length < dirsiz)
    (hlen : path.length + 1 + a.length < bufBytes) :
    cstr (store buf (path.length + 1) (direntName (x.entry k))) bufBytes 0 =
      some (path ++ 47 :: a) := by
  obtain ⟨-, -, hcanon, hfield⟩ := entry_of_holds h
  obtain ⟨more, hraw⟩ := raw_of_short hcanon hfield hshort
  have hnul : 0 ∉ path ++ 47 :: a := by
    rw [mem_append, mem_cons, ← hcanon]
    rintro (hmem | hmem | hmem)
    · exact hpath hmem
    · exact absurd hmem (by decide)
    · exact notMem_canon _ hmem
  have hcons : path ++ 47 :: a = path ++ [47] ++ a := by simp
  have hfront : (path ++ [47]).length = path.length + 1 := length_append
  have hstored := @holds_store buf (path.length + 1) (direntName (x.entry k))
  have hname : Holds (store buf (path.length + 1) (direntName (x.entry k)))
      (0 + (path ++ [47]).length) (a ++ [0]) := by
    rw [hraw, holds_append, holds_cons] at hstored
    rw [hraw, hfront, Nat.zero_add]
    exact holds_append.mpr ⟨hstored.1, hstored.2.1, trivial⟩
  refine cstr_of_holds hnul ?_ ?_
  · rw [hcons, length_append, hfront]
    exact hlen
  · rw [hcons, append_assoc]
    exact holds_append.mpr ⟨hbuf.store (by rw [hfront, Nat.zero_add]), hname⟩

/-- A name that fills its field runs into what follows in the array. -/
theorem cstr_of_full (h : x.dir.Holds k a m) (hpath : 0 ∉ path)
    (hbuf : Holds buf 0 (path ++ [47])) (hfull : ¬a.length < dirsiz)
    (hjunk : ∀ i, path.length + 1 + dirsiz ≤ i → buf i ≠ 0) :
    cstr (store buf (path.length + 1) (direntName (x.entry k))) bufBytes 0 = none := by
  obtain ⟨-, -, hcanon, hfield⟩ := entry_of_holds h
  have hraw := raw_of_full hcanon hfield hfull
  have hfront : (path ++ [47]).length = path.length + 1 := length_append
  refine cstr_eq_none fun i _ _ => ?_
  by_cases hbelow : i < path.length + 1
  · have hkept : Holds (store buf (path.length + 1) (direntName (x.entry k))) 0 (path ++ [47]) :=
      hbuf.store (by rw [hfront, Nat.zero_add])
    refine hkept.ne_zero ?_ (Nat.zero_le _) (by omega)
    rw [mem_append]
    rintro (hmem | hmem)
    · exact hpath hmem
    · exact absurd hmem (by decide)
  · by_cases hname : i < path.length + 1 + dirsiz
    · refine holds_store.ne_zero ?_ (by omega) (by omega)
      rw [hraw, ← hcanon]
      exact notMem_canon _
    · rw [store_of_ge (by omega)]
      exact hjunk i (by omega)

/-! ## The loop -/

variable {call : Nat → Name → Option (List Name)} {todo : Nat} {out : List Name}

/-- The loop prints what the calls for its entries print. -/
theorem entries_of_short {print : Nat → List Name} (hpath : 0 ∉ path)
    (hbuf : Holds buf 0 (path ++ [47])) (hend : k + todo = x.dir.len)
    (hroom : path.length + 1 + dirsiz ≤ bufBytes)
    (hempty : ∀ k, x.dir.slot k = none → print k = [])
    (hdots : ∀ k a m, x.dir.Holds k a m → Dots a → print k = [])
    (hcall : ∀ k a m, x.dir.Holds k a m → ¬Dots a →
      a.length < dirsiz ∧ call k (path ++ 47 :: a) = some (print k)) :
    entries call x (path.length + 1) todo k buf = some ((range' k todo).flatMap print) := by
  induction todo generalizing k buf with
  | zero => rfl
  | succ todo ih =>
    have hk : k < x.dir.len := by omega
    rw [range'_succ, flatMap_cons]
    simp only [entries]
    cases hslot : x.dir.slot k with
    | none =>
      rw [if_pos (entry_of_empty hk hslot), ih hbuf (by omega), hempty k hslot, nil_append]
    | some e =>
      obtain ⟨a, m⟩ := e
      have hholds : x.dir.Holds k a m := ⟨hk, hslot⟩
      obtain ⟨hinum, hm, hcanon, -⟩ := entry_of_holds hholds
      rw [hinum, if_neg hm, hcanon]
      by_cases hname : Dots a
      · rw [if_pos (by exact hname), ih hbuf (by omega), hdots k a m hholds hname, nil_append]
      · obtain ⟨hshort, hprint⟩ := hcall k a m hholds hname
        rw [if_neg (by exact hname), if_pos hroom,
          cstr_of_short hholds hpath hbuf hshort (by omega)]
        simp only [hprint]
        rw [ih (hbuf.store (by rw [length_append]; simp)) (by omega)]
        rfl

/-- What holds of all that the calls print holds of all that the loop prints. -/
theorem forall_entries {P : Name → Prop}
    (hcall : ∀ k path out, call k path = some out → ∀ q ∈ out, P q)
    (hloop : entries call x (path.length + 1) todo k buf = some out) : ∀ q ∈ out, P q := by
  induction todo generalizing k buf out with
  | zero =>
    cases hloop
    exact forall_mem_nil _
  | succ todo ih =>
    simp only [entries] at hloop
    split at hloop
    next => exact ih hloop
    next =>
      split at hloop
      next => exact ih hloop
      next =>
        split at hloop
        next =>
          split at hloop
          next => exact nomatch hloop
          next path' _ =>
            split at hloop
            next => exact nomatch hloop
            next out' hout =>
              obtain ⟨rest, hrest, rfl⟩ := Option.map_eq_some_iff.mp hloop
              exact forall_mem_append.mpr ⟨hcall _ _ _ hout, ih hrest⟩
        next => exact nomatch hloop

/-- Behind a path on a stack without zeros, the loop gets through only if every name is
short. -/
theorem short_of_entries (hpath : 0 ∉ path) (hbuf : Holds buf 0 (path ++ [47]))
    (hjunk : ∀ i, path.length + 1 + dirsiz ≤ i → buf i ≠ 0)
    (hroom : path.length + 1 + dirsiz ≤ bufBytes)
    (hloop : entries call x (path.length + 1) todo k buf = some out) :
    ∀ j a m, k ≤ j → j < k + todo → x.dir.Holds j a m → ¬Dots a →
      a.length < dirsiz ∧ ∃ out, call j (path ++ 47 :: a) = some out := by
  induction todo generalizing k buf out with
  | zero =>
    intro j a m hge hlt
    omega
  | succ todo ih =>
    intro j a m hge hlt hholds hname
    simp only [entries] at hloop
    obtain rfl | hj := eq_or_ne j k
    · obtain ⟨hinum, hm, hcanon, -⟩ := entry_of_holds hholds
      rw [hinum, if_neg hm, hcanon, if_neg (by exact hname), if_pos hroom] at hloop
      by_cases hshort : a.length < dirsiz
      · refine ⟨hshort, ?_⟩
        rw [cstr_of_short hholds hpath hbuf hshort (by omega)] at hloop
        cases hcall : call j (path ++ 47 :: a) with
        | none =>
          simp only [hcall] at hloop
          exact nomatch hloop
        | some out => exact ⟨out, rfl⟩
      · rw [cstr_of_full hholds hpath hbuf hshort hjunk] at hloop
        exact nomatch hloop
    · have hstored : ∀ raw : Name, raw.length = dirsiz →
          Holds (store buf (path.length + 1) raw) 0 (path ++ [47]) ∧
          ∀ i, path.length + 1 + dirsiz ≤ i → store buf (path.length + 1) raw i ≠ 0 := by
        intro raw hraw
        refine ⟨hbuf.store (by rw [length_append]; simp), fun i hi => ?_⟩
        rw [store_of_ge (by omega)]
        exact hjunk i hi
      have hlen : (direntName (x.entry k)).length = dirsiz := by
        simp [direntName, Node.entry, direntSize, dirsiz]
      split at hloop
      next => exact ih hbuf hjunk hloop j a m (by omega) (by omega) hholds hname
      next =>
        split at hloop
        next => exact ih hbuf hjunk hloop j a m (by omega) (by omega) hholds hname
        next =>
          split at hloop
          next => exact nomatch hloop
          next =>
            split at hloop
            next => exact nomatch hloop
            next =>
              obtain ⟨rest, hrest, -⟩ := Option.map_eq_some_iff.mp hloop
              obtain ⟨hbuf', hjunk'⟩ := hstored _ hlen
              exact ih hbuf' hjunk' hrest j a m (by omega) (by omega) hholds hname

end Entries

/-! ## The tree -/

section Tree

variable {N : Nat → Node} {cwd h n fuel : Nat} {target path : Name} {site : List Nat}
  {junk : List Nat → Nat → UInt8}

/-- The array of `find` before its loop. -/
theorem holds_buf (junk : Nat → UInt8) (path : Name) :
    Holds (update (store junk 0 (path ++ [0])) path.length 47) 0 (path ++ [47]) := by
  have hstored : Holds (store junk 0 (path ++ [0])) 0 (path ++ [0]) := holds_store
  rw [holds_append, Nat.zero_add] at hstored ⊢
  exact ⟨hstored.1.update (Or.inr (by omega)) 47, update_self .., trivial⟩

/-- What `find` does with a directory that it can open. -/
theorem find_dir (hopen : (pathWalk N cwd path false).map Prod.fst = some n)
    (hmax : path.length < maxpath) (hdir : (N n).attr.type = tDir)
    (hlen : path.length < bufBytes) :
    find N cwd target junk (fuel + 1) site path =
      entries (fun k path => find N cwd target junk fuel (k :: site) path) (N n)
        (path.length + 1) (N n).dir.len 0
        (update (store (junk site) 0 (path ++ [0])) path.length 47) := by
  rw [find, openPath, if_pos hmax, hopen]
  simp only [hdir, if_pos hlen]
  rw [if_neg (by decide), if_pos trivial]

/-- What `find` does with a path that is too long to be opened. -/
theorem find_long (hmax : ¬path.length < maxpath) :
    find N cwd target junk (fuel + 1) site path = some [] := by
  rw [find, openPath, if_neg hmax]

/-- `find` prints only paths that it has opened. -/
theorem openable_of_find {out : List Name}
    (hfind : find N cwd target junk fuel site path = some out) : Openable out := by
  induction fuel generalizing site path out with
  | zero => exact nomatch hfind
  | succ fuel ih =>
    by_cases hmax : path.length < maxpath
    · rw [find] at hfind
      split at hfind
      next =>
        cases hfind
        exact forall_mem_nil _
      next =>
        split_ifs at hfind
        all_goals try (obtain rfl := Option.some.inj hfind)
        · exact forall_mem_singleton.mpr hmax
        · exact forall_mem_nil _
        · exact forall_entries (fun _ _ _ hcall => ih hcall) hfind
        · exact forall_mem_nil _
    · rw [find_long hmax] at hfind
      cases hfind
      exact forall_mem_nil _

/-- The files of a tree have longer paths than the tree. -/
theorem length_le_of_files {f : Name × Name} (hf : f ∈ files N h n path) :
    path.length ≤ f.1.length := by
  induction h generalizing n path with
  | zero => exact nomatch hf
  | succ h ih =>
    obtain ⟨k, -, hk⟩ := mem_flatMap.mp hf
    cases hslot : (N n).dir.slot k with
    | none =>
      rw [hslot] at hk
      exact nomatch hk
    | some e =>
      rw [hslot, filesOf] at hk
      split_ifs at hk
      · exact nomatch hk
      · rw [mem_singleton.mp hk]
        simp
      · have := ih hk
        rw [length_append] at this
        omega
      · exact nomatch hk

/-- The files of a given name among several lists. -/
theorem named_flatMap (target : Name) (l : List Nat) (f : Nat → List (Name × Name)) :
    named target (l.flatMap f) = l.flatMap fun k => named target (f k) := by
  rw [named, filter_flatMap, map_flatMap]
  rfl

/-- What can be opened of the files of a directory can be opened of those of an entry. -/
theorem Openable.entry {k : Nat} {e : Name × Nat} (hslot : (N n).dir.slot k = some e)
    (hk : k < (N n).dir.len) (hopenable : Openable (named target (files N (h + 1) n path))) :
    Openable (named target (filesOf N path (files N h) (some e))) := by
  intro p hp
  refine hopenable p ?_
  rw [files, named_flatMap, mem_flatMap]
  exact ⟨k, mem_range.mpr hk, by rw [hslot]; exact hp⟩

/-- What `find` does with an entry that is not a directory. -/
theorem find_leaf {a : Name} {m : Nat}
    (hopen : (pathWalk N cwd (path ++ 47 :: a) false).map Prod.fst = some m) (hslash : 47 ∉ a)
    (hroom : a.length < dirsiz) (hleaf : (N m).attr.type ≠ tDir)
    (hfits : (N m).attr.type = tFile → a = target → (path ++ 47 :: a).length < maxpath) :
    find N cwd target junk (fuel + 1) site (path ++ 47 :: a) =
      some (named target (if (N m).attr.type = tFile then [(path ++ 47 :: a, a)] else [])) := by
  by_cases hmax : (path ++ 47 :: a).length < maxpath
  · rw [find, openPath, if_pos hmax, hopen]
    simp only [getFileName_snoc hslash, if_pos hroom, if_neg hleaf]
    by_cases hfile : (N m).attr.type = tFile
    · rw [if_pos hfile, if_pos hfile]
      by_cases htarget : a = target
      · simp [named, htarget]
      · simp [named, htarget]
    · rw [if_neg hfile, if_neg hfile]
      rfl
  · rw [find_long hmax]
    split
    next hfile => simp [named, show a ≠ target from fun htarget => hmax (hfits hfile htarget)]
    next => rfl

/-- If every name leaves room for a terminator and the files can be opened, `find` prints the
paths of the files with the target's name. -/
theorem find_of_short (hpath : path ≠ []) (hnul : 0 ∉ path)
    (hopen : (pathWalk N cwd path false).map Prod.fst = some n)
    (htree : IsTree N h n path.length) (hshort : Short N h n path.length)
    (hopenable : Openable (named target (files N h n path))) (hfuel : h < fuel) :
    find N cwd target junk fuel site path = some (named target (files N h n path)) := by
  induction h generalizing n path site fuel with
  | zero => exact htree.elim
  | succ h ih =>
    obtain ⟨fuel, rfl⟩ := Nat.exists_eq_succ_of_ne_zero (Nat.ne_of_gt (Nat.zero_lt_of_lt hfuel))
    obtain ⟨hdir, hlen, hentries⟩ := htree
    by_cases hmax : path.length < maxpath
    case neg =>
      -- nothing below a path that is too long is to be printed
      have hnone : named target (files N (h + 1) n path) = [] := by
        refine eq_nil_iff_forall_not_mem.mpr fun p hp => hmax ?_
        obtain ⟨f, hf, rfl⟩ := mem_map.mp hp
        exact (length_le_of_files (mem_of_mem_filter hf)).trans_lt (hopenable _ hp)
      rw [find_long hmax, hnone]
    rw [find_dir hopen hmax hdir (by omega), files, named_flatMap, range_eq_range']
    refine entries_of_short hnul (holds_buf _ _) (Nat.zero_add _) (by unfold bufBytes at *; omega)
      (fun k hslot => ?_) (fun k a m hholds hdots => ?_) (fun k a m hholds hname => ?_)
    · rw [hslot]
      rfl
    · rw [hholds.2, filesOf, if_pos hdots]
      rfl
    · obtain ⟨hne, hslash, hfound, -, -, hsub⟩ := hentries k a m hholds hname
      obtain ⟨hroom, hbelow⟩ := hshort hmax k a m hholds hname
      have hentry := hopenable.entry hholds.2 hholds.1
      have hcanon : canon a = a := by
        rw [← (entry_of_holds hholds).2.2.1, canon_canon]
      have hopen' := open_entry hpath hopen hdir hne hslash hcanon hfound
      have hlength : (path ++ 47 :: a).length = path.length + 1 + a.length := by
        rw [length_append, length_cons]
        omega
      refine ⟨hroom, ?_⟩
      rw [hholds.2, filesOf, if_neg hname]
      rw [filesOf, if_neg hname] at hentry
      by_cases hsubdir : (N m).attr.type = tDir
      · have hfile : (N m).attr.type ≠ tFile := by
          rw [hsubdir]
          decide
        rw [if_neg hfile, if_pos hsubdir] at hentry ⊢
        refine ih (by simp) ?_ hopen' (hlength ▸ hsub hsubdir) (hlength ▸ hbelow hsubdir) hentry
          (by omega)
        rw [mem_append, mem_cons]
        rintro (hmem | hmem | hmem)
        · exact hnul hmem
        · exact absurd hmem (by decide)
        · exact notMem_canon a (hcanon.symm ▸ hmem)
      · obtain ⟨fuel, rfl⟩ := Nat.exists_eq_succ_of_ne_zero (show fuel ≠ 0 by omega)
        rw [if_neg hsubdir] at hentry ⊢
        refine find_leaf hopen' hslash hroom hsubdir fun hfile htarget => ?_
        rw [if_pos hfile] at hentry
        exact hentry _ (by simp [named, htarget])

/-- On a stack without zeros, `find` gets through the tree only if every name is short. -/
theorem short_of_find (hjunk : ∀ site i, junk site i ≠ 0) (hpath : path ≠ []) (hnul : 0 ∉ path)
    (hopen : (pathWalk N cwd path false).map Prod.fst = some n)
    (htree : IsTree N h n path.length) {out : List Name}
    (hfind : find N cwd target junk fuel site path = some out) : Short N h n path.length := by
  induction h generalizing n path site fuel out with
  | zero => trivial
  | succ h ih =>
    intro hmax
    obtain ⟨hdir, hlen, hentries⟩ := htree
    cases fuel with
    | zero => exact nomatch hfind
    | succ fuel =>
      rw [find_dir hopen hmax hdir (by omega)] at hfind
      have hloop := short_of_entries hnul (holds_buf _ _) (fun i hi => ?_)
        (by unfold bufBytes at *; omega) hfind
      · intro k a m hholds hname
        obtain ⟨hroom, out, hcall⟩ := hloop k a m (Nat.zero_le _) (by have := hholds.1; omega)
          hholds hname
        refine ⟨hroom, fun hsubdir => ?_⟩
        obtain ⟨hne, hslash, hfound, -, -, hsub⟩ := hentries k a m hholds hname
        have hcanon : canon a = a := by
          rw [← (entry_of_holds hholds).2.2.1, canon_canon]
        have hlength : (path ++ 47 :: a).length = path.length + 1 + a.length := by
          rw [length_append, length_cons]
          omega
        refine hlength ▸ ih (by simp) ?_ (open_entry hpath hopen hdir hne hslash hcanon hfound)
          (hlength ▸ hsub hsubdir) hcall
        rw [mem_append, mem_cons]
        rintro (hmem | hmem | hmem)
        · exact hnul hmem
        · exact absurd hmem (by decide)
        · exact notMem_canon a (hcanon.symm ▸ hmem)
      · rw [update_of_ne (by omega), store_of_ge (by rw [length_append]; simp; omega)]
        exact hjunk site i

end Tree

/-! ## A directory with one file -/

/-- A root directory with a single, empty file. -/
def oneFile (name : Name) : Nat → Node := fun n =>
  if n = 1 then
    ⟨⟨tDir, 0, 0, 1, 48⟩, fun i =>
      (encodeDirent dot 1 ++ encodeDirent dotdot 1 ++ encodeDirent name 2).getD i 0⟩
  else if n = 2 then ⟨⟨tFile, 0, 0, 1, 0⟩, fun _ => 0⟩
  else Node.free

/-- It has three entries. -/
theorem len_oneFile (name : Name) : (oneFile name 1).dir.len = 3 := by
  simp [oneFile, Node.dir, direntSize]

/-- What its entries are. -/
theorem holds_oneFile {name a : Name} {k m : Nat}
    (hslots : (range 3).map (oneFile name 1).dir.slot =
      [some (dot, 1), some (dotdot, 1), some (name, 2)])
    (hholds : (oneFile name 1).dir.Holds k a m) (hname : ¬Dots a) : k = 2 ∧ a = name ∧ m = 2 := by
  obtain ⟨hk, hslot⟩ := hholds
  rw [len_oneFile] at hk
  simp only [range_succ, range_zero, nil_append, map_cons,
    map_nil, cons_append, cons.injEq, and_true] at hslots
  obtain ⟨h0, h1, h2⟩ := hslots
  unfold Dots at hname
  interval_cases k
  · rw [h0, Option.some.injEq, Prod.mk.injEq] at hslot
    exact absurd hslot.1.symm (not_or.mp hname).1
  · rw [h1, Option.some.injEq, Prod.mk.injEq] at hslot
    exact absurd hslot.1.symm (not_or.mp hname).2
  · rw [h2, Option.some.injEq, Prod.mk.injEq] at hslot
    exact ⟨rfl, hslot.1.symm, hslot.2.symm⟩

/-- It is the top of a tree. -/
theorem isTree_oneFile {name : Name}
    (hslots : (range 3).map (oneFile name 1).dir.slot =
      [some (dot, 1), some (dotdot, 1), some (name, 2)])
    (hfound : (oneFile name 1).dir.lookup name = some (2, 2)) (hne : name ≠ [])
    (hslash : 47 ∉ name) (hlen : name.length ≤ dirsiz) : IsTree (oneFile name) 1 1 1 := by
  refine ⟨rfl, by decide, fun k a m hholds hname => ?_⟩
  obtain ⟨rfl, rfl, rfl⟩ := holds_oneFile hslots hholds hname
  have htype : (oneFile a 2).attr.type = tFile := rfl
  rw [htype]
  refine ⟨hne, hslash, hfound, by decide, ?_, fun hdir => absurd hdir (by decide)⟩
  unfold bufBytes dirsiz at *
  omega

/-- A name of `DIRSIZ` bytes. -/
def fullName : Name := replicate dirsiz 97

end Find
end Xv6
