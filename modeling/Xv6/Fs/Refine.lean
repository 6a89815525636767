import Mathlib.Tactic
import Xv6.Fs.Image

/-!
# Files as byte arrays, directories as maps

The contents of a locked inode behave like a list of bytes under `readi`, `writei`
and `itrunc`, and no other inode is touched.  A locked directory behaves like a map from
names to inode numbers under `dirlookup`, `dirlink` and the zeroing of an entry.

Main results:

- Theorem {lit}`contents_refine_bytes`.
- Theorem {lit}`directory_is_finite_map`.
-/

namespace Xv6

open Lib Function

namespace Fs

/-- The contents of a cached inode. -/
def contents (fs : Fs) (n : Nat) : List UInt8 :=
  (List.range (fs.icache n).din.size).map (content fs.disk (fs.icache n).din)

/-- The first `len` bytes of a source. -/
def sourceBytes (src : Source) (len : Nat) : List UInt8 :=
  (List.range len).map fun i => (src i).getD 0

/-- No other inode has changed: neither its attributes and contents nor its
addresses. -/
def Untouched (n : Nat) (fs fs' : Fs) : Prop :=
  (∀ m, m ≠ n → fs'.view.node m = fs.view.node m) ∧ Others n fs fs'

/-- The blocks that writing `len` bytes at `off` has to allocate. -/
def needed (fs : Fs) (n off len : Nat) : Nat :=
  (missing fs.disk (fs.icache n).din (slotsOf (off / bsize) (blocks (off + len)))).card

section Refine

variable {fs : Fs} {n : Nat}

/-- The length of a file. -/
@[simp]
theorem length_contents : (contents fs n).length = (fs.icache n).din.size := by
  simp [contents]

/-- The contents in terms of the file that the view shows. -/
theorem Ok.contents_eq (h : Ok fs) (hlocked : fs.view.locked n = true) :
    contents fs n =
      (List.range (fs.view.node n).attr.size).map (fs.view.node n).data := by
  obtain ⟨href, hvalid, -, -⟩ := h.locked hlocked
  rw [h.node_valid href hvalid]
  apply List.map_congr_left
  intro i hi
  exact (if_pos (List.mem_range.mp hi)).symm

/-- The size in the view is that of the entry. -/
theorem Ok.size_eq (h : Ok fs) (hlocked : fs.view.locked n = true) :
    (fs.view.node n).attr.size = (fs.icache n).din.size := by
  obtain ⟨href, hvalid, -, -⟩ := h.locked hlocked
  rw [h.node_valid href hvalid]
  rfl

/-- An element of a function on a range. -/
theorem getElem?_map_range {f : Nat → UInt8} {m i : Nat} :
    ((List.range m).map f)[i]? = if i < m then some (f i) else none := by
  simp only [List.getElem?_map]
  split <;> simp_all

/-- Reading is taking a slice. -/
theorem returns_readi {off len : Nat} (h : Ok fs) (hlocked : fs.view.locked n = true)
    (hover : off + len < 2 ^ 32) :
    Returns (readi n (fun _ => true) off len) fs fun r fs' =>
      fs' = fs ∧ r = ((contents fs n).drop off).take len := by
  refine (wp_readi_view h hlocked (by omega)).imp ?_
  rintro r fs' ⟨hfs, k, -, rfl, hall⟩
  refine ⟨hfs, ?_⟩
  rw [hall (fun _ => rfl) hover, h.contents_eq hlocked]
  apply List.ext_getElem?
  intro i
  rw [getElem?_map_range, List.getElem?_take, List.getElem?_drop, getElem?_map_range]
  by_cases hi : i < len
  · rw [if_pos hi]
    by_cases hin : off + i < (fs.view.node n).attr.size
    · rw [if_pos hin, if_pos (by omega)]
    · rw [if_neg hin, if_neg (by omega)]
  · rw [if_neg hi, if_neg (by omega)]

/-- Writing replaces a range of the list. -/
theorem contents_write {src : Source} {off len : Nat} {x : Node}
    (hsrc : ∀ i < len, src i ≠ none) (hoff : off ≤ x.attr.size) :
    (List.range (x.write src off len).attr.size).map (x.write src off len).data =
      ((List.range x.attr.size).map x.data).take off ++ sourceBytes src len ++
        ((List.range x.attr.size).map x.data).drop (off + len) := by
  have hall : mapped src 0 len = len := mapped_all fun i hi => by simpa using hsrc i hi
  have hsize : (x.write src off len).attr.size = max x.attr.size (off + len) := by
    simp [Node.write, hall, reach]
  have hlen : (((List.range x.attr.size).map x.data).take off).length = off := by
    simp [hoff]
  apply List.ext_getElem?
  intro i
  rw [getElem?_map_range, hsize, List.append_assoc, List.getElem?_append, hlen]
  have hdata : i < max x.attr.size (off + len) → (x.write src off len).data i =
      if off ≤ i ∧ i < off + len then (src (i - off)).getD 0 else x.data i := by
    intro hi
    simp only [Node.write, hall, reach, if_true]
    rw [if_pos hi]
  have hbytes : (sourceBytes src len).length = len := by simp [sourceBytes]
  by_cases hbefore : i < off
  · rw [if_pos hbefore, if_pos (by omega), hdata (by omega), if_neg (by omega),
      List.getElem?_take, if_pos hbefore, getElem?_map_range, if_pos (by omega)]
  · rw [if_neg hbefore, List.getElem?_append, hbytes]
    by_cases hin : i < off + len
    · have hrel : i - off < len := by omega
      have hsize' : i < max x.attr.size (off + len) := by omega
      rw [if_pos hrel, if_pos hsize', hdata hsize', if_pos (by omega), sourceBytes,
        getElem?_map_range, if_pos hrel]
    · have hrel : ¬i - off < len := by omega
      have hidx : off + len + (i - off - len) = i := by omega
      rw [if_neg hrel, List.getElem?_drop, getElem?_map_range, hidx]
      by_cases hold : i < x.attr.size
      · have hsize' : i < max x.attr.size (off + len) := by omega
        rw [if_pos hsize', if_pos hold, hdata hsize', if_neg (by omega)]
      · rw [if_neg (by omega), if_neg hold]

/-- Other files are left alone. -/
theorem Post.untouched {fs' : Fs} {x : Node} {X : Set Nat}
    (hpost : Post fs fs' (fs.view.setNode n x) X)
    (hothers : Others n fs fs') : Untouched n fs fs' := by
  refine ⟨fun m hm => ?_, hothers⟩
  rw [hpost.view]
  exact update_of_ne hm _ _

/-- `writei` of bytes that can all be read, with enough free blocks. -/
theorem returns_writei {src : Source} {off len : Nat} (h : Ok fs) (hop : 0 < fs.outstanding)
    (hlocked : fs.view.locked n = true) (hsrc : ∀ i < len, src i ≠ none)
    (hoff : off ≤ (fs.icache n).din.size) (hend : off + len ≤ maxfile * bsize)
    (hfree : needed fs n off len ≤ (freeBlocks fs.sb fs.disk).card) :
    Returns (writei n src off len) fs fun r fs' =>
      r = len ∧ Ok fs' ∧ fs'.view.locked n = true ∧
      contents fs' n = (contents fs n).take off ++ sourceBytes src len ++
        (contents fs n).drop (off + len) ∧ Untouched n fs fs' := by
  have hsize := h.size_eq hlocked
  have hbound : maxfile * bsize < 2 ^ 32 := by decide
  obtain ⟨-, -, -, hdin⟩ := h.locked hlocked
  refine (wp_writei h hop hlocked (by omega)).mono ?_ ?_
  · rintro r fs' (⟨-, -, hbad⟩ | ⟨rfl, -, -, hothers, Y, -, hpost⟩)
    · omega
    · have hlocked' : fs'.view.locked n = true := by
        rw [hpost.view]
        exact hlocked
      refine ⟨rfl, hpost.ok, hlocked', ?_, hpost.untouched hothers⟩
      rw [hpost.ok.contents_eq hlocked', hpost.view, h.contents_eq hlocked]
      have hnode : (fs.view.setNode n ((fs.view.node n).write src off len)).node n =
          (fs.view.node n).write src off len := update_self _ _ _
      rw [hnode]
      exact contents_write hsrc (by omega)
  · rintro e _ ⟨-, -, -, hfew⟩
    rw [← hdin] at hfew
    exact absurd hfree (Nat.not_le.mpr hfew)

/-- `itrunc` empties the file. -/
theorem returns_itrunc (h : Ok fs) (hop : 0 < fs.outstanding)
    (hlocked : fs.view.locked n = true) :
    Returns (itrunc n) fs fun _ fs' =>
      Ok fs' ∧ fs'.view.locked n = true ∧ contents fs' n = [] ∧ Untouched n fs fs' := by
  refine (wp_itrunc h hop hlocked).imp ?_
  rintro _ fs' ⟨hothers, -, hpost⟩
  have hlocked' : fs'.view.locked n = true := by
    rw [hpost.view]
    exact hlocked
  refine ⟨hpost.ok, hlocked', ?_, hpost.untouched hothers⟩
  rw [hpost.ok.contents_eq hlocked', hpost.view]
  simp [View.setNode, Node.empty]

end Refine

/-- Under `writei`, `readi` and `itrunc` the contents of a locked inode are a byte
array, and nothing else changes. -/
theorem contents_refine_bytes {fs : Fs} {n : Nat} (h : Ok fs) (hop : 0 < fs.outstanding)
    (hlocked : fs.view.locked n = true) :
    (∀ (src : Source) (off len : Nat), (∀ i < len, src i ≠ none) →
      off ≤ (fs.icache n).din.size → off + len ≤ maxfile * bsize →
      needed fs n off len ≤ (freeBlocks fs.sb fs.disk).card →
      Returns (writei n src off len) fs fun r fs' =>
        r = len ∧ (fs'.icache n).din.size = max (fs.icache n).din.size (off + len) ∧
        (∀ o l, o + l < 2 ^ 32 → Returns (readi n (fun _ => true) o l) fs' fun bytes fs'' =>
          fs'' = fs' ∧ bytes = (((contents fs n).take off ++ sourceBytes src len ++
            (contents fs n).drop (off + len)).drop o).take l) ∧
        Untouched n fs fs') ∧
    (∀ off len, off + len < 2 ^ 32 →
      Returns (readi n (fun _ => true) off len) fs fun bytes fs' =>
        fs' = fs ∧ bytes = ((contents fs n).drop off).take len ∧
        (off ≤ (fs.icache n).din.size → bytes.length = min len ((fs.icache n).din.size - off))) ∧
    Returns (itrunc n) fs fun _ fs' =>
      (fs'.icache n).din.size = 0 ∧
      (∀ o l, o + l < 2 ^ 32 → Returns (readi n (fun _ => true) o l) fs' fun bytes fs'' =>
        fs'' = fs' ∧ bytes = []) ∧
      Untouched n fs fs' := by
  refine ⟨?_, ?_, ?_⟩
  · intro src off len hsrc hoff hend hfree
    refine (returns_writei h hop hlocked hsrc hoff hend hfree).mono ?_
    rintro r fs' ⟨hr, hok, hlocked', hcontents, huntouched⟩
    refine ⟨hr, ?_, ?_, huntouched⟩
    · have hlength := congrArg List.length hcontents
      simp only [length_contents, List.length_append, List.length_take, List.length_drop,
        sourceBytes, List.length_map, List.length_range] at hlength
      omega
    · intro o l hover
      rw [← hcontents]
      exact returns_readi hok hlocked' hover
  · intro off len hover
    refine (returns_readi h hlocked hover).mono ?_
    rintro bytes fs' ⟨hfs, rfl⟩
    exact ⟨hfs, rfl, fun _ => by simp⟩
  · refine (returns_itrunc h hop hlocked).mono ?_
    rintro _ fs' ⟨hok, hlocked', hcontents, huntouched⟩
    refine ⟨?_, ?_, huntouched⟩
    · rw [← length_contents, hcontents]
      rfl
    · intro o l hover
      refine (returns_readi hok hlocked' hover).mono ?_
      rintro bytes fs'' ⟨hfs, rfl⟩
      exact ⟨hfs, by rw [hcontents]; simp⟩

/-- The root directory of an image, once it is locked. -/
theorem exists_locked_root : ∃ fs, ilock rootino Tiny.fs = .ok () fs ∧ Ok fs ∧
    0 < fs.outstanding ∧ fs.view.locked rootino = true ∧
    fs.view.node = Fs.nodeOf Tiny.sb Tiny.tinyDisk ∧
    (dinodes fs.sb fs.disk rootino).size = direntSize * 2 ∧
    ∀ bn, bn * bsize < direntSize * 2 → addrOf fs.disk (dinodes fs.sb fs.disk rootino) bn ≠ 0 := by
  obtain ⟨fs, hrun, hpost⟩ := Tiny.lock_root
  have hlocked : fs.view.locked rootino = true := by
    rw [hpost.view]
    rfl
  have hnode : fs.view.node = Fs.nodeOf Tiny.sb Tiny.tinyDisk := by
    rw [hpost.view]
    rfl
  obtain ⟨-, -, halloc, -⟩ := hpost.ok.locked hlocked
  have hsize : (dinodes fs.sb fs.disk rootino).size = direntSize * 2 := by
    have hattr : (fs.view.node rootino).attr.size = direntSize * 2 := by
      rw [hnode, Tiny.node_root]
      rfl
    rwa [node_of_allocated halloc] at hattr
  refine ⟨fs, hrun, hpost.ok, hpost.outstanding ▸ by decide, hlocked, hnode, hsize, ?_⟩
  exact fun bn hbn => hpost.ok.core.mapped rootino bn halloc (hsize ▸ hbn)

/-- Three bytes are appended to the root directory and read again. -/
theorem contents_refine_bytes_tiny :
    ∃ fs, ilock rootino Tiny.fs = .ok () fs ∧
      Returns (writei rootino (fun i => some (UInt8.ofNat i)) 32 3) fs fun r fs' =>
        r = 3 ∧ (fs'.icache rootino).din.size = 35 ∧
        Returns (readi rootino (fun _ => true) 32 3) fs' fun bytes fs'' =>
          fs'' = fs' ∧ bytes = [0, 1, 2] := by
  obtain ⟨fs, hrun, hok, hop, hlocked, -, hsize, hmapped⟩ := exists_locked_root
  have hdin : (fs.icache rootino).din = dinodes fs.sb fs.disk rootino :=
    (hok.locked hlocked).2.2.2
  have hlength : (contents fs rootino).length = 32 := by
    rw [length_contents, hdin, hsize]
    rfl
  have hfree : needed fs rootino 32 3 ≤ (freeBlocks fs.sb fs.disk).card := by
    rw [needed, hdin, missing_mapped, Finset.card_empty]
    · exact Nat.zero_le _
    · intro bn _ hhi
      refine hmapped bn ?_
      unfold blocks bsize at hhi
      unfold bsize direntSize
      omega
  refine ⟨fs, hrun, ((contents_refine_bytes hok hop hlocked).1
    (fun i => some (UInt8.ofNat i)) 32 3 (fun i _ => Option.some_ne_none _)
    (by rw [hdin, hsize]; decide) (by decide) hfree).mono ?_⟩
  rintro r fs' ⟨hr, hsize', hreads, -⟩
  refine ⟨hr, by rw [hsize', hdin, hsize]; rfl, (hreads 32 3 (by decide)).mono ?_⟩
  rintro bytes fs'' ⟨hfs, rfl⟩
  refine ⟨hfs, ?_⟩
  rw [List.append_assoc, List.drop_append_of_le_length (by simp [hlength]),
    List.drop_of_length_le (by simp), List.nil_append]
  rfl

/-! ## Directories -/

section Lookup

variable {fs : Fs} {dp : Nat}

open Calls

/-- The offset and the inode number of the entry with a name. -/
def found (x : Node) (name : Name) : Option (Nat × Nat) :=
  (x.dir.lookup (canon name)).map fun e => (direntSize * e.1, e.2)

/-- `dirlookup` of a name returns, with the result `r`. -/
def LooksUp (fs : Fs) (dp : Nat) (name : Name) (r : Option (Nat × Nat)) : Prop :=
  (∀ off n, r = some (off, n) → Cacheable fs n) →
  Returns (dirlookup dp name) fs fun r' fs' =>
    r' = r ∧ fs'.view = r.elim fs.view fun e => fs.view.addRef e.2 1

/-- `dirlookup` finds what the directory has. -/
theorem looksUp {name : Name} (h : Ok fs) (hlocked : fs.view.locked dp = true)
    (hdir : (fs.view.node dp).IsDir) :
    LooksUp fs dp name (found (fs.view.node dp) name) := by
  intro hroom
  unfold found at hroom ⊢
  refine (wp_dirlookup h hlocked hdir).mono ?_ ?_
  · rintro r fs' (⟨rfl, hnone, rfl⟩ | ⟨k, n, rfl, hfound, hpost⟩)
    · rw [hnone]
      exact ⟨rfl, rfl⟩
    · rw [hfound]
      exact ⟨rfl, hpost.view⟩
  · rintro e _ ⟨-, k, n, hfound, hfull⟩
    exact hfull (hroom (direntSize * k) n (by rw [hfound]; rfl))

end Lookup

open Calls

/-! ## Long names -/

/-- `strncpy` reads no more than its bound. -/
theorem strncpy_take (s : List UInt8) (n : Nat) : strncpy (s.take n) n = strncpy s n := by
  induction n generalizing s with
  | zero => rfl
  | succ n ih =>
    cases s with
    | nil => rfl
    | cons a s =>
      rw [strncpy, strncpy, List.take_succ_cons, List.tail_cons, List.tail_cons, ih]
      rfl

/-- The loop of `dirlookup` reads no more than `DIRSIZ` bytes of the name. -/
theorem lookupLoop_take {σ : Type} [InodeLayer σ] (dp : Nat) (name : Name) (size fuel off : Nat) :
    (lookupLoop dp (name.take dirsiz) size fuel off : Prog σ _) =
      lookupLoop dp name size fuel off := by
  induction fuel generalizing off with
  | zero => rfl
  | succ fuel ih =>
    simp only [lookupLoop, ih, namecmp_eq_zero, canon_take]

/-- Names longer than `DIRSIZ` are looked up as their first bytes. -/
theorem dirlookup_take {σ : Type} [InodeLayer σ] (dp : Nat) (name : Name) :
    (dirlookup dp (name.take dirsiz) : Prog σ _) = dirlookup dp name := by
  simp only [dirlookup, lookupLoop_take]

/-- Names longer than `DIRSIZ` are entered as their first bytes. -/
theorem dirlink_take {σ : Type} [InodeLayer σ] (dp : Nat) (name : Name) (inum : Nat) :
    (dirlink dp (name.take dirsiz) inum : Prog σ _) = dirlink dp name inum := by
  simp only [dirlink, dirlookup_take, encodeDirent, strncpy_take]

/-- A name that fills its field differs from every shorter one. -/
theorem namecmp_full {name other : Name} (hbytes : ∀ b ∈ name, b ≠ 0)
    (hfull : name.length = dirsiz) (hshort : other.length < dirsiz) : namecmp name other ≠ 0 := by
  rw [Ne, namecmp_eq_zero]
  intro heq
  have hlen := congrArg List.length heq
  have hall : name.takeWhile (· ≠ 0) = name := by
    rw [List.takeWhile_eq_self_iff]
    simpa using hbytes
  have hle := (List.takeWhile_sublist (l := other) (p := fun b => decide (b ≠ 0))).length_le
  rw [canon, canon, hall, List.length_take, List.length_take, hfull] at hlen
  omega

section Map

variable {fs : Fs} {dp : Nat}

/-- The blocks that writing entry `k` of directory `dp` has to allocate are there. -/
def HasRoom (fs : Fs) (dp k : Nat) : Prop :=
  (missing fs.disk (dinodes fs.sb fs.disk dp)
    (slotsOf (direntSize * k / bsize) (blocks (direntSize * (k + 1))))).card ≤
      (freeBlocks fs.sb fs.disk).card

/-- Zeroing an entry empties its slot. -/
theorem returns_zeroEntry {k : Nat} (h : Ok fs) (hop : 0 < fs.outstanding)
    (hlocked : fs.view.locked dp = true) (hdir : (fs.view.node dp).IsDir)
    (hk : k < (fs.view.node dp).dir.len) :
    Returns (writei dp (kernelSource (List.replicate direntSize 0)) (direntSize * k) direntSize) fs
      fun r fs' => r = direntSize ∧ Ok fs' ∧ fs'.view.locked dp = true ∧
        (fs'.view.node dp).IsDir ∧
        (fs'.view.node dp).dir = (fs.view.node dp).dir.set k none := by
  refine (wp_writeEntry h hop hlocked hk.le hdir.size).mono ?_ ?_
  · rintro r fs' (⟨-, -, hend, -⟩ | ⟨hr, -, Y, -, hpost⟩)
    · omega
    · have hnode : fs'.view.node dp =
          (fs.view.node dp).writeEntry k (List.replicate direntSize 0) := by
        rw [hpost.view]
        exact update_self _ _ _
      refine ⟨hr, hpost.ok, by rw [hpost.view]; exact hlocked, ?_, ?_⟩
      · rw [hnode]
        exact ⟨hdir.type, Node.size_mod_writeEntry hdir.size⟩
      · rw [hnode, Node.dir_write hdir.size hk.le (by simp), slotOfEntry_zero]
  · rintro e _ ⟨-, hfew⟩
    rw [missing_entry h hlocked hdir hk, Finset.card_empty] at hfew
    exact absurd hfew (Nat.not_lt_zero _)

/-- `dirlink` in a directory that has room. -/
theorem returns_dirlink {name : Name} {inum : Nat} (h : Ok fs) (hop : 0 < fs.outstanding)
    (hlocked : fs.view.locked dp = true) (hdir : (fs.view.node dp).IsDir) (hpos : 0 < inum)
    (hlt : inum < 2 ^ 16)
    (hroom : (fs.view.node dp).attr.size < maxfile * bsize ∨
      ∃ k < (fs.view.node dp).dir.len, (fs.view.node dp).dir.slot k = none)
    (hblocks : HasRoom fs dp (fs.view.node dp).dir.free)
    (hcache : ∀ k n, (fs.view.node dp).dir.lookup (canon name) = some (k, n) → Cacheable fs n) :
    Returns (dirlink dp name inum) fs fun r fs' =>
      (r = false ∧ (∃ k n, (fs.view.node dp).dir.lookup (canon name) = some (k, n)) ∧
        Post fs fs' fs.view ∅) ∨
      (r = true ∧ (fs.view.node dp).dir.lookup (canon name) = none ∧ Ok fs' ∧
        0 < fs'.outstanding ∧ fs'.view.locked dp = true ∧ (fs'.view.node dp).IsDir ∧
        (fs'.view.node dp).dir =
          (fs.view.node dp).dir.set (fs.view.node dp).dir.free (some (canon name, inum))) := by
  refine (wp_dirlink h hop hlocked hdir).mono ?_ ?_
  · rintro r fs' (hold | ⟨hr, hnone, -, Y, -, hpost⟩)
    · exact Or.inl hold
    · have hnode : fs'.view.node dp = linked (fs.view.node dp) name inum := by
        rw [hpost.view]
        exact update_self _ _ _
      refine Or.inr ⟨hr, hnone, hpost.ok, hpost.outstanding ▸ hop, ?_, ?_, ?_⟩
      · rw [hpost.view]
        exact hlocked
      · rw [hnode]
        exact ⟨hdir.type, Node.size_mod_writeEntry hdir.size⟩
      · rw [hnode, linked, Node.dir_write hdir.size Slots.free_le (length_encodeDirent _ _),
          slotOfEntry_encodeDirent hpos hlt]
  · rintro e _ (⟨-, k, n, hfound, hfull⟩ | ⟨-, hmax, hend⟩ | ⟨-, hfew⟩)
    · exact hfull (hcache k n hfound)
    · rcases hroom with hsize | ⟨k, hk, hempty⟩
      · omega
      · -- The first empty slot is not behind an empty slot.
        have hle : (fs.view.node dp).dir.free ≤ k := Slots.free_le_of_empty hk hempty
        omega
    · exact absurd hblocks (Nat.not_le.mpr hfew)

/-- The entry that `dirlink` writes in an empty slot can be found, the others are
found as before, and zeroing it removes it. -/
theorem directory_is_finite_map {name : Name} {inum : Nat} (h : Ok fs) (hop : 0 < fs.outstanding)
    (hlocked : fs.view.locked dp = true) (hdir : (fs.view.node dp).IsDir)
    (hroom : (fs.view.node dp).attr.size < maxfile * bsize ∨
      ∃ k < (fs.view.node dp).dir.len, (fs.view.node dp).dir.slot k = none)
    (hdistinct : (fs.view.node dp).dir.Distinct) (hpos : 0 < inum) (hlt : inum < 2 ^ 16)
    (hblocks : HasRoom fs dp (fs.view.node dp).dir.free)
    (hcache : ∀ k n, (fs.view.node dp).dir.Holds k (canon name) n → Cacheable fs n) :
    (Returns (dirlink dp name inum) fs fun r fs' =>
      ((∃ k n, (fs.view.node dp).dir.Holds k (canon name) n) →
        r = false ∧ fs'.view = fs.view ∧ ∀ c ∈ fs'.logged, c ∈ fs.logged) ∧
      ((∀ k n, ¬(fs.view.node dp).dir.Holds k (canon name) n) →
        r = true ∧ ∃ k, (∀ a n, ¬(fs.view.node dp).dir.Holds k a n) ∧
          (∀ j a n, (fs'.view.node dp).dir.Holds j a n ↔
            (fs.view.node dp).dir.Holds j a n ∨ j = k ∧ a = canon name ∧ n = inum) ∧
          (fs'.view.node dp).dir.Distinct ∧
          LooksUp fs' dp name (some (direntSize * k, inum)) ∧
          (∀ other, canon other ≠ canon name →
            LooksUp fs dp other (found (fs.view.node dp) other) ∧
            LooksUp fs' dp other (found (fs.view.node dp) other)) ∧
          Returns (writei dp (kernelSource (List.replicate direntSize 0)) (direntSize * k)
              direntSize) fs' fun r fs'' => r = direntSize ∧
            (∀ j a n, (fs''.view.node dp).dir.Holds j a n ↔ (fs.view.node dp).dir.Holds j a n) ∧
            LooksUp fs'' dp name none ∧
            ∀ other, canon other ≠ canon name →
              LooksUp fs'' dp other (found (fs.view.node dp) other))) ∧
    (dirlookup dp (name.take dirsiz) : Prog Fs _) = dirlookup dp name ∧
    (dirlink dp (name.take dirsiz) inum : Prog Fs _) = dirlink dp name inum ∧
    ∀ other : Name, (∀ b ∈ name, b ≠ 0) → name.length = dirsiz → other.length < dirsiz →
      namecmp name other ≠ 0 := by
  refine ⟨?_, dirlookup_take dp name, dirlink_take dp name inum, fun other => namecmp_full⟩
  refine (returns_dirlink h hop hlocked hdir hpos hlt hroom hblocks fun k n hfound =>
    hcache k n (.of_lookup hfound)).mono ?_
  rintro r fs' (⟨rfl, ⟨k, n, hfound⟩, hpost⟩ | ⟨rfl, hnone, hok, hop', hlocked', hdir', hset⟩)
  · refine ⟨fun _ => ⟨rfl, hpost.view, fun c hc => ?_⟩, fun habsent => ?_⟩
    · exact (hpost.logs c hc).resolve_right (Set.notMem_empty c)
    · exact absurd (Slots.Holds.of_lookup hfound) (habsent k n)
  · have habsent := Slots.lookup_eq_none.mp hnone
    refine ⟨fun ⟨k, n, hold⟩ => absurd hold (habsent k n), fun _ =>
      ⟨rfl, (fs.view.node dp).dir.free, ?_⟩⟩
    generalize hfree : (fs.view.node dp).dir.free = free at *
    have hle : free ≤ (fs.view.node dp).dir.len := hfree ▸ Slots.free_le
    have hempty : free < (fs.view.node dp).dir.len → (fs.view.node dp).dir.slot free = none :=
      hfree ▸ Slots.slot_free
    have hunused : ∀ a n, ¬(fs.view.node dp).dir.Holds free a n := by
      rintro a n ⟨hlt, hslot⟩
      rw [hempty hlt] at hslot
      cases hslot
    have hholds : ∀ j a n, (fs'.view.node dp).dir.Holds j a n ↔
        (fs.view.node dp).dir.Holds j a n ∨ j = free ∧ a = canon name ∧ n = inum := by
      intro j a n
      rw [hset, Slots.holds_set_some hle hempty]
    have hlookup : ∀ b, (fs'.view.node dp).dir.lookup b =
        if b = canon name then some (free, inum) else (fs.view.node dp).dir.lookup b := by
      intro b
      rw [hset, Slots.lookup_set_some hdistinct hle hempty hnone]
    have hdistinct' : (fs'.view.node dp).dir.Distinct := by
      rw [hset]
      exact hdistinct.set_some hle hempty habsent
    have hself : (fs'.view.node dp).dir.Holds free (canon name) inum :=
      (hholds _ _ _).mpr (Or.inr ⟨rfl, rfl, rfl⟩)
    refine ⟨hunused, hholds, hdistinct', ?_, ?_, ?_⟩
    · have hfound : LooksUp fs' dp name _ := looksUp hok hlocked' hdir'
      rwa [found, hlookup, if_pos rfl] at hfound
    · intro other hother
      refine ⟨looksUp h hlocked hdir, ?_⟩
      have hfound : LooksUp fs' dp other _ := looksUp hok hlocked' hdir'
      rwa [found, hlookup, if_neg hother] at hfound
    · refine (returns_zeroEntry hok hop' hlocked' hdir' hself.1).mono ?_
      rintro r fs'' ⟨hr, hok'', hlocked'', hdir'', hset''⟩
      refine ⟨hr, ?_, ?_, ?_⟩
      · intro j a n
        rw [hset'', Slots.holds_set_none hself.1.le, hholds]
        constructor
        · rintro ⟨hold | ⟨hj, -⟩, hne⟩
          · exact hold
          · exact absurd hj hne
        · intro hold
          refine ⟨Or.inl hold, ?_⟩
          rintro rfl
          exact hunused a n hold
      · have hfound : LooksUp fs'' dp name _ := looksUp hok'' hlocked'' hdir''
        rwa [found, hset'', Slots.lookup_set_none hdistinct' hself, if_pos rfl] at hfound
      · intro other hother
        have hfound : LooksUp fs'' dp other _ := looksUp hok'' hlocked'' hdir''
        rwa [found, hset'', Slots.lookup_set_none hdistinct' hself, if_neg hother, hlookup,
          if_neg hother] at hfound

end Map

/-- The root directory of an image takes one more name. -/
theorem directory_is_finite_map_tiny :
    ∃ fs, ilock rootino Tiny.fs = .ok () fs ∧
      Returns (dirlink rootino [97] 2) fs fun r _ => r = true := by
  obtain ⟨fs, hrun, hok, hop, hlocked, hnode, -, hmapped⟩ := exists_locked_root
  have habsent : ∀ k n, ¬(fs.view.node rootino).dir.Holds k (canon [97]) n := by
    intro k n hholds
    rw [hnode] at hholds
    have hmem := List.mem_of_getElem? (Tiny.entry_of_holds_root hholds)
    exact absurd rfl ((by decide : ∀ e ∈ Tiny.entries, e.1 ≠ canon [97]) _ hmem)
  have hsize : (fs.view.node rootino).attr.size = direntSize * 2 := by
    rw [hnode, Tiny.node_root]
    rfl
  have hfree : (fs.view.node rootino).dir.free ≤ 2 :=
    Slots.free_le.trans (le_of_eq (by rw [hnode, Tiny.len_root]))
  have hblocks : HasRoom fs rootino (fs.view.node rootino).dir.free := by
    generalize (fs.view.node rootino).dir.free = free at hfree
    rw [HasRoom, missing_mapped, Finset.card_empty]
    · exact Nat.zero_le _
    · -- one more entry fits into the block that is there
      intro bn _ hhi
      refine hmapped bn ?_
      unfold blocks bsize direntSize at *
      omega
  refine ⟨fs, hrun, (directory_is_finite_map hok hop hlocked
    ⟨?_, by rw [hsize]; decide⟩ (Or.inl (by rw [hsize]; decide)) ?_ (by decide) (by decide) hblocks
    fun k n hholds => absurd hholds (habsent k n)).1.mono fun r fs' h => (h.2 habsent).1⟩
  · rw [hnode]
    exact Tiny.image_tinyDisk.root
  · rw [hnode]
    exact Tiny.distinct_root

end Fs

end Xv6
