import Mathlib.Data.List.TakeWhile
import Mathlib.Tactic
import Xv6.Lib.Slots
import Xv6.Fs.Ops

/-!
# Directories

A directory is a file of fixed-size entries.  Seen as a table of slots, `dirlookup`
finds the first slot with a name, `dirlink` fills the first empty one and
`sys_unlink` empties one.

Main results:

- Theorem {lit}`namecmp_eq_zero`: names are compared by their first bytes.
- Theorem {lit}`dir_write`: writing an entry replaces one slot.
- Theorems {lit}`wp_dirlookup`, {lit}`wp_dirlink` and {lit}`wp_isdirempty`.
-/

namespace Xv6

open Lib Function

namespace Calls

/-! ## Names -/

/-- The bytes of a name that matter. -/
def canon (s : List UInt8) : Name :=
  (s.takeWhile (· ≠ 0)).take dirsiz

/-- One more byte of a name. -/
theorem take_takeWhile_succ (p : List UInt8) (n : Nat) :
    (p.takeWhile (· ≠ 0)).take (n + 1) =
      if p.headD 0 = 0 then [] else p.headD 0 :: (p.tail.takeWhile (· ≠ 0)).take n := by
  cases p with
  | nil => simp
  | cons a p =>
    by_cases ha : a = 0
    · simp [ha]
    · simp [ha]

/-- `strncmp` compares the names up to their NUL bytes. -/
theorem strncmp_eq_zero (p q : List UInt8) (n : Nat) :
    strncmp p q n = 0 ↔ (p.takeWhile (· ≠ 0)).take n = (q.takeWhile (· ≠ 0)).take n := by
  induction n generalizing p q with
  | zero => simp [strncmp]
  | succ n ih =>
    rw [strncmp, take_takeWhile_succ, take_takeWhile_succ]
    split
    next hsame =>
      rw [ih, if_neg hsame.1, if_neg (hsame.2 ▸ hsame.1), hsame.2, List.cons_inj_right]
    next hdiff =>
      -- The loop stops, at two zeros or at two bytes that differ.
      rw [sub_eq_zero, Nat.cast_inj, UInt8.toNat_inj]
      by_cases hp : p.headD 0 = 0
      · by_cases hq : q.headD 0 = 0
        · simp only [hp, hq, if_true]
        · simp only [hp, hq, if_true, if_false, Ne.symm hq, List.nil_eq, reduceCtorEq]
      · have hne : p.headD 0 ≠ q.headD 0 := fun heq => hdiff ⟨hp, heq⟩
        by_cases hq : q.headD 0 = 0
        · simp only [hp, hq, if_true, if_false, reduceCtorEq]
        · simp only [hp, hq, hne, if_false, List.cons.injEq, false_and]

/-- `namecmp` compares the names as entries have them. -/
theorem namecmp_eq_zero {s t : List UInt8} : namecmp s t = 0 ↔ canon s = canon t :=
  strncmp_eq_zero s t dirsiz

/-- `strncpy` fills its buffer. -/
@[simp]
theorem length_strncpy (t : List UInt8) (n : Nat) : (strncpy t n).length = n := by
  induction n generalizing t with
  | zero => rfl
  | succ n ih =>
    unfold strncpy
    split
    · simp [ih]
    · simp

/-- The name that `strncpy` has written. -/
theorem takeWhile_strncpy (t : List UInt8) (n : Nat) :
    (strncpy t n).takeWhile (· ≠ 0) = (t.takeWhile (· ≠ 0)).take n := by
  induction n generalizing t with
  | zero => simp [strncpy]
  | succ n ih =>
    rw [strncpy, take_takeWhile_succ]
    by_cases ht : t.headD 0 = 0
    · rw [if_neg (not_not.mpr ht), if_pos ht]
      simp [List.replicate_succ]
    · rw [if_pos ht, if_neg ht, List.takeWhile_cons_of_pos (by simpa using ht), ih]

/-- `strncpy` keeps the name of an entry. -/
@[simp]
theorem canon_strncpy (t : List UInt8) : canon (strncpy t dirsiz) = canon t := by
  rw [canon, takeWhile_strncpy, canon, List.take_take, min_self]

/-- Bytes beyond the bound do not matter. -/
theorem takeWhile_take (s : List UInt8) (n : Nat) :
    ((s.take n).takeWhile (· ≠ 0)).take n = (s.takeWhile (· ≠ 0)).take n := by
  induction n generalizing s with
  | zero => simp
  | succ n ih =>
    rw [take_takeWhile_succ, take_takeWhile_succ s]
    cases s with
    | nil => rfl
    | cons a s =>
      rw [List.take_succ_cons, List.tail_cons, List.tail_cons, ih]
      rfl

/-- Only the first bytes of a name count. -/
theorem canon_take (s : Name) : canon (s.take dirsiz) = canon s :=
  takeWhile_take s dirsiz

/-! ## Entries -/

/-- What an entry says: nothing, or a name and an inode number. -/
def slotOfEntry (bytes : List UInt8) : Option (Name × Nat) :=
  if direntInum bytes = 0 then none else some (canon (direntName bytes), direntInum bytes)

/-- The size of an entry. -/
@[simp]
theorem length_encodeDirent (name : Name) (inum : Nat) :
    (encodeDirent name inum).length = direntSize := by
  simp [encodeDirent, dirsiz, direntSize]

/-- The inode number of an entry. -/
theorem direntInum_encodeDirent (name : Name) (inum : Nat) :
    direntInum (encodeDirent name inum) = inum % 2 ^ 16 := by
  simp only [direntInum, encodeDirent, List.cons_append, List.nil_append, List.getD_cons_zero,
    List.getD_cons_succ, UInt8.toNat_ofNat']
  omega

/-- Reading back an entry. -/
theorem slotOfEntry_encodeDirent {name : Name} {inum : Nat} (hpos : 0 < inum)
    (hlt : inum < 2 ^ 16) : slotOfEntry (encodeDirent name inum) = some (canon name, inum) := by
  have hinum : direntInum (encodeDirent name inum) = inum := by
    rw [direntInum_encodeDirent, Nat.mod_eq_of_lt hlt]
  have hname : direntName (encodeDirent name inum) = strncpy name dirsiz := rfl
  rw [slotOfEntry, hinum, if_neg hpos.ne', hname, canon_strncpy]

/-- A zeroed entry is free. -/
theorem slotOfEntry_zero : slotOfEntry (List.replicate direntSize 0) = none := rfl

end Calls

/-! ## Directories as tables -/

namespace Node

open Calls

/-- The bytes of entry `k`. -/
def entry (x : Node) (k : Nat) : List UInt8 :=
  (List.range direntSize).map fun i => x.data (direntSize * k + i)

/-- The directory as a table. -/
def dir (x : Node) : Slots Name Nat where
  len := x.attr.size / direntSize
  slot := fun k => if k < x.attr.size / direntSize then slotOfEntry (x.entry k) else none

/-- The entries of a directory. -/
theorem slot_dir {x : Node} {k : Nat} (hk : k < x.dir.len) :
    x.dir.slot k = slotOfEntry (x.entry k) :=
  if_pos hk

/-- The inode numbers in a directory are not 0. -/
theorem pos_of_holds {x : Node} {k n : Nat} {a : Name} (h : x.dir.Holds k a n) : 0 < n := by
  obtain ⟨hk, hslot⟩ := h
  rw [slot_dir hk, slotOfEntry] at hslot
  split at hslot
  · cases hslot
  next hne =>
    rw [Option.some.injEq, Prod.mk.injEq] at hslot
    omega

/-- The directory after the bytes of entry `k` have been replaced. -/
def writeEntry (x : Node) (k : Nat) (bytes : List UInt8) : Node :=
  x.write (kernelSource bytes) (direntSize * k) direntSize

section WriteEntry

variable {x : Node} {k : Nat} {bytes : List UInt8}

/-- The kernel can read its own memory. -/
theorem mapped_kernelSource (bytes : List UInt8) (len : Nat) :
    Fs.mapped (kernelSource bytes) 0 len = len :=
  Fs.mapped_all fun _ _ => Option.some_ne_none _

/-- The size after writing an entry. -/
theorem size_writeEntry :
    (x.writeEntry k bytes).attr.size = max x.attr.size (direntSize * (k + 1)) := by
  simp only [writeEntry, write, mapped_kernelSource, Fs.reach]
  simp [mul_add]

/-- The bytes after writing an entry. -/
theorem data_writeEntry {i : Nat} (hi : i < max x.attr.size (direntSize * (k + 1))) :
    (x.writeEntry k bytes).data i =
      if direntSize * k ≤ i ∧ i < direntSize * (k + 1) then bytes.getD (i - direntSize * k) 0
      else x.data i := by
  rw [mul_add, mul_one] at hi ⊢
  simp only [writeEntry, write, mapped_kernelSource, Fs.reach, kernelSource, if_true, if_pos hi,
    Option.getD_some]

/-- The entry that has been written. -/
theorem entry_writeEntry_self (hbytes : bytes.length = direntSize) :
    (x.writeEntry k bytes).entry k = bytes := by
  apply List.ext_getElem?
  intro i
  by_cases hi : i < direntSize
  · have hin : direntSize * k + i < direntSize * (k + 1) := by
      rw [mul_add, mul_one]
      omega
    have hdata : (x.writeEntry k bytes).data (direntSize * k + i) = _ :=
      data_writeEntry (lt_max_of_lt_right hin)
    rw [if_pos ⟨Nat.le_add_right _ _, hin⟩, Nat.add_sub_cancel_left] at hdata
    simp [entry, hi, hdata, List.getElem?_eq_getElem (hbytes ▸ hi)]
  · rw [List.getElem?_eq_none (by simp [entry]; omega), List.getElem?_eq_none (by omega)]

/-- The other entries. -/
theorem entry_writeEntry_of_ne {j : Nat} (hj : j ≠ k) (hlt : j < x.dir.len) :
    (x.writeEntry k bytes).entry j = x.entry j := by
  apply List.map_congr_left
  intro i hi
  have hi := List.mem_range.mp hi
  have hmul := Nat.div_mul_le_self x.attr.size direntSize
  change j < x.attr.size / direntSize at hlt
  rw [data_writeEntry, if_neg]
  · unfold direntSize at *
    omega
  · apply lt_max_of_lt_left
    unfold direntSize at *
    omega

/-- Writing an entry replaces one slot. -/
theorem dir_write (hsize : x.attr.size % direntSize = 0) (hk : k ≤ x.dir.len)
    (hbytes : bytes.length = direntSize) :
    (x.writeEntry k bytes).dir = x.dir.set k (slotOfEntry bytes) := by
  have hlen : (x.writeEntry k bytes).dir.len = max x.dir.len (k + 1) := by
    change (x.writeEntry k bytes).attr.size / direntSize = max (x.attr.size / direntSize) (k + 1)
    rw [size_writeEntry]
    unfold direntSize at *
    omega
  refine Slots.ext hlen (funext fun j => ?_)
  by_cases hj : j = k
  · have hself : j < (x.writeEntry k bytes).dir.len := by
      rw [hlen, hj]
      exact lt_max_of_lt_right (Nat.lt_succ_self k)
    rw [slot_dir hself, hj, entry_writeEntry_self hbytes]
    exact (update_self k _ x.dir.slot).symm
  · change _ = update x.dir.slot k _ j
    rw [update_of_ne hj]
    by_cases hlt : j < x.dir.len
    · rw [slot_dir (hlen ▸ lt_max_of_lt_left hlt), slot_dir hlt, entry_writeEntry_of_ne hj hlt]
    · have hout : ¬j < (x.writeEntry k bytes).dir.len := by
        rw [hlen, lt_max_iff]
        omega
      exact (if_neg hout).trans (if_neg hlt).symm

/-- A directory is made of whole entries. -/
theorem size_mod_writeEntry (hsize : x.attr.size % direntSize = 0) :
    (x.writeEntry k bytes).attr.size % direntSize = 0 := by
  rw [size_writeEntry]
  unfold direntSize at *
  omega

end WriteEntry

/-- The file is a directory made of whole entries. -/
structure IsDir (x : Node) : Prop where
  type : x.attr.type = tDir
  size : x.attr.size % direntSize = 0

/-- An offset is the one of an entry. -/
theorem offset_lt {x : Node} (hsize : x.attr.size % direntSize = 0) {k : Nat} :
    direntSize * k < x.attr.size ↔ k < x.dir.len := by
  change _ ↔ k < x.attr.size / direntSize
  unfold direntSize at *
  omega

end Node

namespace Fs

open Calls

/-! ## Scanning -/

section Scan

variable {fs : Fs} {dp : Nat} {E : String → Fs → Prop}

/-- The size of a file is bounded. -/
theorem Ok.size_le (h : Ok fs) (n : Nat) : (fs.view.node n).attr.size ≤ maxfile * bsize := by
  change (nodeOf fs.sb fs.disk n).attr.size ≤ _
  unfold nodeOf
  split
  next halloc =>
    exact h.core.size_le n halloc
  · exact Nat.zero_le _

/-- Reading one entry. -/
theorem wp_readDirent {k : Nat} {message : String} (h : Ok fs) (hlocked : fs.view.locked dp = true)
    (hk : k < (fs.view.node dp).dir.len) :
    Wp (readDirent dp (direntSize * k) message) fs
      (fun de fs' => fs' = fs ∧ de = (fs.view.node dp).entry k) E := by
  have hle := h.size_le dp
  have hmul := Nat.div_mul_le_self (fs.view.node dp).attr.size direntSize
  change k < (fs.view.node dp).attr.size / direntSize at hk
  have hend : direntSize * k + direntSize ≤ (fs.view.node dp).attr.size := by
    unfold direntSize at *
    omega
  have hover : direntSize * k + direntSize < 2 ^ 32 :=
    (hend.trans hle).trans_lt (by decide)
  simp only [readDirent, wp_bind]
  refine (wp_readi_view h hlocked (by decide)).imp ?_
  rintro r fs' ⟨rfl, m, -, rfl, hall⟩
  have hm := hall (fun _ => rfl) hover
  rw [Nat.min_eq_left (by omega)] at hm
  rw [hm, if_neg (by simp), wp_pure]
  exact ⟨rfl, rfl⟩

/-- The test that `dirlookup` makes. -/
theorem slotOfEntry_eq_some {de : List UInt8} {name : Name} {n : Nat} :
    slotOfEntry de = some (canon name, n) ↔
      (direntInum de ≠ 0 ∧ namecmp name (direntName de) = 0) ∧ direntInum de = n := by
  rw [namecmp_eq_zero, slotOfEntry]
  split
  next hzero =>
    simp [hzero]
  next hne =>
    simp [hne, eq_comm]

/-- A free entry has inode number 0. -/
theorem slotOfEntry_eq_none {de : List UInt8} : slotOfEntry de = none ↔ direntInum de = 0 := by
  simp [slotOfEntry]

/-- The number of entries is bounded by the size. -/
theorem len_le_size {x : Node} : x.dir.len ≤ x.attr.size :=
  Nat.div_le_self _ _

/-- A loop over the entries from entry `k` on, which stops at the first one with `stop`. -/
theorem wp_scan {α : Type} {loop : Nat → Nat → Prog Fs α} {stop : List UInt8 → Prop}
    [DecidablePred stop] {hit : Nat → List UInt8 → α} {miss : Nat → α} {message : String}
    {Q : α → Prop} {x : Node} (hzero : ∀ off, loop 0 off = pure (miss off))
    (hsucc : ∀ fuel off, loop (fuel + 1) off =
      if off < x.attr.size then do
        let de ← readDirent dp off message
        if stop de then return hit off de else loop fuel (off + direntSize)
      else pure (miss off))
    (h : Ok fs) (hlocked : fs.view.locked dp = true) (hx : fs.view.node dp = x)
    (hsize : x.attr.size % direntSize = 0) (fuel k : Nat) (hfuel : x.dir.len ≤ k + fuel)
    (hhit : ∀ j, k ≤ j → j < x.dir.len → stop (x.entry j) →
      (∀ i, k ≤ i → i < j → ¬stop (x.entry i)) → Q (hit (direntSize * j) (x.entry j)))
    (hmiss : ∀ j, (k ≤ x.dir.len → j = x.dir.len) →
      (∀ i, k ≤ i → i < x.dir.len → ¬stop (x.entry i)) → Q (miss (direntSize * j))) :
    Wp (loop fuel (direntSize * k)) fs (fun r fs' => fs' = fs ∧ Q r) E := by
  induction fuel generalizing k with
  | zero =>
    rw [hzero, wp_pure]
    exact ⟨rfl, hmiss k (by omega) fun i hi hlt => by omega⟩
  | succ fuel ih =>
    rw [hsucc]
    split
    next hlt =>
      rw [Node.offset_lt hsize, ← hx] at hlt
      rw [wp_bind]
      refine (wp_readDirent h hlocked hlt).imp ?_
      rintro de fs' ⟨hfs, rfl⟩
      rw [hx] at hlt ⊢
      rw [hfs]
      split
      next hstop =>
        exact wp_pure.mpr ⟨rfl, hhit k le_rfl hlt hstop fun i hi hik => by omega⟩
      next hgo =>
        -- Entry `k` has been passed.
        have hpass : ∀ i, (k + 1 ≤ i → ¬stop (x.entry i)) → k ≤ i → ¬stop (x.entry i) := by
          intro i hi hki
          rcases hki.lt_or_eq with hlt | rfl
          · exact hi hlt
          · exact hgo
        refine ih (k + 1) (by omega) (fun j hkj hj hstop hbefore => ?_) fun j hj hnone => ?_
        · exact hhit j (by omega) hj hstop fun i hi hij => hpass i (fun hi => hbefore i hi hij) hi
        · exact hmiss j (fun _ => hj hlt) fun i hi hlt => hpass i (fun hi => hnone i hi hlt) hi
    next hge =>
      rw [Node.offset_lt hsize, Nat.not_lt] at hge
      exact wp_pure.mpr ⟨rfl, hmiss k (by omega) fun i hi hlt => by omega⟩

/-- The loop of `dirlookup`. -/
theorem wp_lookupLoop {name : Name} (h : Ok fs) (hlocked : fs.view.locked dp = true)
    (hsize : (fs.view.node dp).attr.size % direntSize = 0) :
    Wp (lookupLoop dp name (fs.view.node dp).attr.size (fs.view.node dp).attr.size 0) fs
      (fun r fs' => fs' = fs ∧ r = ((fs.view.node dp).dir.lookup (canon name)).map
        fun e => (direntSize * e.1, e.2)) E := by
  refine wp_scan (fun _ => rfl) (fun _ _ => rfl) h hlocked rfl hsize _ 0
    (len_le_size.trans (Nat.le_add_left _ _)) ?_ ?_
  · intro j _ hj hfound hbefore
    rw [Slots.lookup_eq_some_of_first
      ⟨hj, (Node.slot_dir hj).trans (slotOfEntry_eq_some.mpr ⟨hfound, rfl⟩)⟩ fun i hi n hholds =>
        hbefore i (Nat.zero_le i) hi
          (slotOfEntry_eq_some.mp ((Node.slot_dir hholds.1).symm.trans hholds.2)).1]
    rfl
  · intro _ _ hnone
    rw [Slots.lookup_eq_none.mpr fun i n hholds => hnone i (Nat.zero_le i) hholds.1
      (slotOfEntry_eq_some.mp ((Node.slot_dir hholds.1).symm.trans hholds.2)).1]
    rfl

/-- The loop of `dirlink` that looks for a free entry. -/
theorem wp_emptyLoop (h : Ok fs) (hlocked : fs.view.locked dp = true)
    (hsize : (fs.view.node dp).attr.size % direntSize = 0) :
    Wp (emptyLoop dp (fs.view.node dp).attr.size (fs.view.node dp).attr.size 0) fs
      (fun r fs' => fs' = fs ∧ r = direntSize * (fs.view.node dp).dir.free) E := by
  refine wp_scan (fun _ => rfl) (fun _ _ => rfl) h hlocked rfl hsize _ 0
    (len_le_size.trans (Nat.le_add_left _ _)) ?_ ?_
  · intro j _ hj hempty hbefore
    rw [Slots.free_eq_of_first hj.le (fun i hi hnone => ?_) fun _ => ?_]
    · rw [Node.slot_dir (hi.trans hj), slotOfEntry_eq_none] at hnone
      exact hbefore i (Nat.zero_le i) hi hnone
    · rw [Node.slot_dir hj, slotOfEntry_eq_none]
      exact hempty
  · intro j hj hused
    rw [hj (Nat.zero_le _), Slots.free_eq_of_first le_rfl (fun i hi hnone => ?_)
      fun hlt => absurd hlt (lt_irrefl _)]
    rw [Node.slot_dir hi, slotOfEntry_eq_none] at hnone
    exact hused i (Nat.zero_le i) hi hnone

/-- A directory without entries from the third one on. -/
def Bare (t : Slots Name Nat) : Prop :=
  ∀ k, 2 ≤ k → k < t.len → t.slot k = none

/-- `isdirempty`. -/
theorem wp_isdirempty (h : Ok fs) (hlocked : fs.view.locked dp = true)
    (hsize : (fs.view.node dp).attr.size % direntSize = 0) :
    Wp (isdirempty dp) fs
      (fun r fs' => fs' = fs ∧ (r = true ↔ Bare (fs.view.node dp).dir)) E := by
  rw [isdirempty, wp_bind]
  refine (wp_attr h hlocked).mpr ?_
  rw [Nat.mul_comm]
  refine wp_scan (fun _ => rfl) (fun _ _ => rfl) h hlocked rfl hsize _ 2
    (len_le_size.trans (Nat.le_add_left _ _)) ?_ ?_
  · refine fun j hj hlt hused _ => ⟨fun hf => absurd hf Bool.false_ne_true, fun hbare => ?_⟩
    exact absurd (slotOfEntry_eq_none.mp ((Node.slot_dir hlt).symm.trans (hbare j hj hlt))) hused
  · refine fun _ _ hnone => ⟨fun _ j hj hlt => ?_, fun _ => rfl⟩
    rw [Node.slot_dir hlt, slotOfEntry_eq_none]
    exact not_not.mp (hnone j hj hlt)

end Scan

/-! ## Looking up and linking -/

section Link

variable {fs : Fs} {dp : Nat} {E : String → Fs → Prop}

/-- A file without links is referenced. -/
theorem Ok.orphan_ref {n : Nat} (h : Ok fs) (htype : (fs.view.node n).attr.type ≠ 0)
    (hnlink : (fs.view.node n).attr.nlink = 0) : 0 < fs.view.ref n := by
  have halloc := allocated_of_type htype
  rw [node_of_allocated halloc] at hnlink
  exact (h.orphan n halloc hnlink).1

/-- `dirlookup`. -/
theorem wp_dirlookup {name : Name} (h : Ok fs) (hlocked : fs.view.locked dp = true)
    (hdir : (fs.view.node dp).IsDir) :
    Wp (dirlookup dp name) fs
      (fun r fs' =>
        (r = none ∧ (fs.view.node dp).dir.lookup (canon name) = none ∧ fs' = fs) ∨
        ∃ k n, r = some (direntSize * k, n) ∧
          (fs.view.node dp).dir.lookup (canon name) = some (k, n) ∧
          Post fs fs' (fs.view.addRef n 1) ∅)
      (fun e _ => e = "iget: no inodes" ∧ ∃ k n,
        (fs.view.node dp).dir.lookup (canon name) = some (k, n) ∧ ¬Cacheable fs n) := by
  simp only [dirlookup, wp_bind]
  refine (wp_attr h hlocked).mpr ?_
  rw [if_neg (not_not.mpr hdir.type), wp_bind]
  refine (wp_lookupLoop h hlocked hdir.size).imp ?_
  rintro r fs' ⟨hfs, rfl⟩
  rw [hfs]
  cases hfound : (fs.view.node dp).dir.lookup (canon name) with
  | none =>
    rw [Option.map_none, wp_pure]
    exact Or.inl ⟨rfl, rfl, rfl⟩
  | some e =>
    obtain ⟨k, n⟩ := e
    simp only [Option.map_some, wp_bind]
    refine (wp_iget h).mono ?_ ?_
    · intro _ fs₁ hpost
      exact wp_pure.mpr (Or.inr ⟨k, n, rfl, rfl, hpost⟩)
    · rintro e _ ⟨he, hfull⟩
      exact ⟨he, k, n, rfl, hfull⟩

/-- Dropping a reference that was taken on top of those that the state had. -/
theorem wp_iput_extra {n : Nat} (h : Ok fs) (hop : 0 < fs.outstanding) (href : 0 < fs.view.ref n)
    (hlocked : fs.view.locked n = true → 1 < fs.view.ref n)
    (horphan : (fs.view.node n).attr.type ≠ 0 → (fs.view.node n).attr.nlink = 0 →
      1 < fs.view.ref n) :
    Wp (iput n) fs (fun _ fs' => Post fs fs' (fs.view.addRef n (-1)) ∅) E := by
  refine (wp_iput h hop href hlocked).imp ?_
  intro _ fs' hpost
  rwa [if_neg] at hpost
  rintro ⟨hone, htype, hnlink⟩
  have hmore := horphan htype hnlink
  omega

/-- Taking a reference and giving it back. -/
theorem addRef_addRef (v : View) (n : Nat) : (v.addRef n 1).addRef n (-1) = v := by
  refine View.ext rfl ?_ rfl
  simp [View.addRef]

/-- The blocks that a write of directory entry `k` may log besides the bitmap and
the inode. -/
theorem card_entry_slots (k : Nat) :
    (slotsOf (direntSize * k / bsize) (blocks (direntSize * k + direntSize))).card ≤ 2 := by
  have hblocks : blocks (direntSize * k + direntSize) ≤ direntSize * k / bsize + 1 := by
    unfold blocks bsize direntSize
    omega
  calc (slotsOf (direntSize * k / bsize) (blocks (direntSize * k + direntSize))).card
      ≤ (slotsOf (direntSize * k / bsize) (direntSize * k / bsize + 1)).card :=
        Finset.card_le_card (slotsOf_mono le_rfl hblocks)
    _ ≤ 1 + 1 := by
        unfold slotsOf
        refine (Finset.card_union_le _ _).trans (Nat.add_le_add ?_ ?_)
        · simp
        · split <;> simp

/-- Writing a directory entry. -/
theorem wp_writeEntry {k : Nat} {bytes : List UInt8} (h : Ok fs) (hop : 0 < fs.outstanding)
    (hlocked : fs.view.locked dp = true) (hk : k ≤ (fs.view.node dp).dir.len)
    (hdir : (fs.view.node dp).attr.size % direntSize = 0) :
    Wp (writei dp (kernelSource bytes) (direntSize * k) direntSize) fs
      (fun r fs' =>
        (r = -1 ∧ fs' = fs ∧ k = (fs.view.node dp).dir.len ∧
          (fs.view.node dp).attr.size = maxfile * bsize) ∨
        (r = direntSize ∧ Others dp fs fs' ∧ ∃ Y : Finset Nat, Y.card ≤ 2 ∧
          Post fs fs' (fs.view.setNode dp ((fs.view.node dp).writeEntry k bytes))
            ({iblock fs.sb dp} ∪ bitmap fs.sb ∪ Y)))
      (fun e _ => e = "balloc: out of blocks" ∧
        (freeBlocks fs.sb fs.disk).card < (missing fs.disk (dinodes fs.sb fs.disk dp)
          (slotsOf (direntSize * k / bsize) (blocks (direntSize * (k + 1))))).card) := by
  have hle := h.size_le dp
  refine (wp_writei h hop hlocked (by decide)).mono ?_ ?_
  · rintro r fs' (⟨hr, hfs, hbad⟩ | ⟨hr, -, -, hothers, Y, hY, hpost⟩)
    · refine Or.inl ⟨hr, hfs, ?_⟩
      change k ≤ (fs.view.node dp).attr.size / direntSize at hk
      change k = (fs.view.node dp).attr.size / direntSize ∧ _
      unfold direntSize maxfile ndirect nindirect bsize at *
      omega
    · exact Or.inr ⟨hr, hothers, Y, hY.trans (card_entry_slots k), hpost⟩
  · rintro e fs' ⟨he, -, -, hfew⟩
    exact ⟨he, hfew⟩

/-- The directory after `dirlink`. -/
def linked (x : Node) (name : Name) (inum : Nat) : Node :=
  x.writeEntry x.dir.free (encodeDirent name inum)

/-- `dirlink`. -/
theorem wp_dirlink {name : Name} {inum : Nat} (h : Ok fs) (hop : 0 < fs.outstanding)
    (hlocked : fs.view.locked dp = true) (hdir : (fs.view.node dp).IsDir) :
    Wp (dirlink dp name inum) fs
      (fun r fs' =>
        (r = false ∧ (∃ k n, (fs.view.node dp).dir.lookup (canon name) = some (k, n)) ∧
          Post fs fs' fs.view ∅) ∨
        (r = true ∧ (fs.view.node dp).dir.lookup (canon name) = none ∧ Others dp fs fs' ∧
          ∃ Y : Finset Nat, Y.card ≤ 2 ∧
            Post fs fs' (fs.view.setNode dp (linked (fs.view.node dp) name inum))
              ({iblock fs.sb dp} ∪ bitmap fs.sb ∪ Y)))
      (fun e _ =>
        (e = "iget: no inodes" ∧ ∃ k n,
          (fs.view.node dp).dir.lookup (canon name) = some (k, n) ∧ ¬Cacheable fs n) ∨
        (e = "dirlink" ∧ (fs.view.node dp).attr.size = maxfile * bsize ∧
          (fs.view.node dp).dir.free = (fs.view.node dp).dir.len) ∨
        (e = "balloc: out of blocks" ∧
          (freeBlocks fs.sb fs.disk).card < (missing fs.disk (dinodes fs.sb fs.disk dp)
            (slotsOf (direntSize * (fs.view.node dp).dir.free / bsize)
              (blocks (direntSize * ((fs.view.node dp).dir.free + 1))))).card)) := by
  simp only [dirlink, wp_bind]
  refine (wp_dirlookup h hlocked hdir).mono ?_ fun _ _ => Or.inl
  rintro r fs₁ (⟨rfl, hnone, hfs⟩ | ⟨k, n, rfl, hfound, hpost⟩)
  · rw [hfs]
    simp only [wp_bind]
    refine (wp_attr h hlocked).mpr ?_
    refine (wp_emptyLoop h hlocked hdir.size).imp ?_
    rintro _ fs₂ ⟨hfs₂, rfl⟩
    rw [hfs₂]
    refine (wp_writeEntry h hop hlocked Slots.free_le hdir.size).mono ?_ fun _ _ he =>
      Or.inr (Or.inr he)
    rintro r fs' (⟨rfl, -, hfull, hmax⟩ | ⟨rfl, hothers, Y, hY, hpost⟩)
    · rw [if_pos (by decide), wp_bind, wp_throw]
      exact Or.inr (Or.inl ⟨rfl, hmax, hfull⟩)
    · rw [if_neg (not_not.mpr rfl), wp_pure]
      exact Or.inr ⟨rfl, hnone, hothers, Y, hY, hpost⟩
  · simp only [wp_bind]
    have href : fs₁.view.ref n = fs.view.ref n + 1 := by
      rw [hpost.view]
      simp [View.addRef]
    have hnonneg : 0 ≤ fs.view.ref n := h.ref_nonneg n
    have hmore : 0 < fs.view.ref n → 1 < fs₁.view.ref n := by omega
    refine (wp_iput_extra hpost.ok (hpost.outstanding ▸ hop) (by omega) ?_ ?_).imp ?_
    · intro hl
      rw [hpost.view] at hl
      exact hmore (h.held n hl).1
    · intro htype hnlink
      rw [hpost.view] at htype hnlink
      exact hmore (h.orphan_ref htype hnlink)
    · intro _ fs₂ hpost₂
      rw [wp_pure]
      refine Or.inl ⟨rfl, ⟨k, n, hfound⟩, ?_⟩
      have hall := hpost.trans hpost₂
      rwa [hpost.view, addRef_addRef, Set.union_empty] at hall

/-- The blocks of an entry that is there are mapped. -/
theorem missing_entry {k : Nat} (h : Ok fs) (hlocked : fs.view.locked dp = true)
    (hdir : (fs.view.node dp).IsDir) (hk : k < (fs.view.node dp).dir.len) :
    missing fs.disk (dinodes fs.sb fs.disk dp)
      (slotsOf (direntSize * k / bsize) (blocks (direntSize * (k + 1)))) = ∅ := by
  obtain ⟨-, -, halloc, -⟩ := h.locked hlocked
  have hsize : (dinodes fs.sb fs.disk dp).size = (fs.view.node dp).attr.size := by
    rw [node_of_allocated halloc]
    rfl
  have hlt := (Node.offset_lt hdir.size).mpr hk
  apply missing_mapped
  intro bn hlo hhi
  apply h.core.mapped dp bn halloc
  rw [hsize]
  refine (?_ : bn * bsize ≤ direntSize * k).trans_lt hlt
  unfold blocks bsize direntSize at *
  omega

end Link

end Fs
end Xv6
