import Mathlib.Tactic
import Xv6.Fs.Calls
import Xv6.Fs.Content
import Xv6.Fs.Trunc

/-!
# Files without blocks

Between two operations on inodes the file system can be seen as a table of files
with attributes and contents, and a table of references and locks.  Each operation
on the blocks and the cache is described by what it does to this view.

Main definitions:

- {lit}`Ok`: block ownership is exact, and cached inodes agree with their blocks.
- {lit}`Fs.View`: files, references and locks.
- {lit}`Post`: what an operation has done.
-/

namespace Xv6

open Lib Function

/-! ## The table of inodes -/

/-- The inodes on disk. -/
def dinodes (sb : Superblock) (disk : Nat → Block) (n : Nat) : Dinode :=
  if n < sb.ninodes then getDinode (disk (iblock sb n)) (n % ipb) else ⟨0, 0, 0, 0, 0, fun _ => 0⟩

section Dinodes

variable {sb : Superblock} {disk disk' : Nat → Block} {n m : Nat} {d : Dinode}

/-- The inodes are on the blocks below the bitmap. -/
theorem dinodes_congr (hwf : sb.Wf) (hlow : ∀ c < sb.bmapstart, disk' c = disk c) :
    dinodes sb disk' = dinodes sb disk := by
  funext n
  unfold dinodes
  split
  next hn =>
    rw [hlow _ (hwf.iblock_lt hn)]
  · rfl

/-- Writing one inode. -/
theorem dinodes_putDisk (hn : n < sb.ninodes) (hd : d.Fits) :
    dinodes sb (Fs.putDisk sb disk n d) = update (dinodes sb disk) n d := by
  funext m
  by_cases hm : m = n
  · rw [hm, update_self, dinodes, if_pos hn, Fs.putDisk, update_self,
      getDinode_putDinode_same hd]
  · rw [update_of_ne hm]
    unfold dinodes Fs.putDisk
    split
    · by_cases hblock : iblock sb m = iblock sb n
      · have hdiv : m / ipb = n / ipb := Nat.add_right_cancel hblock
        have hslot : m % ipb ≠ n % ipb := by
          intro hmod
          apply hm
          rw [← Nat.div_add_mod m ipb, hdiv, hmod, Nat.div_add_mod]
        rw [hblock, update_self, getDinode_putDinode_of_ne hslot]
      · rw [update_of_ne hblock]
    · rfl

/-- Storing an inode leaves bitmap and data blocks alone. -/
theorem Core.putDisk {D : Nat → Dinode} (h : Core sb disk D) (hn : n < sb.ninodes) :
    Core sb (Fs.putDisk sb disk n d) D := by
  apply h.frame
  · intro b _
    exact update_of_ne (h.wf.iblock_ne_bblock hn).symm _ _
  · intro m hm hne
    have hdata := (h.owner_data (Core.owner_indirect disk hm hne)).1
    exact update_of_ne ((h.wf.iblock_lt_nmeta hn).trans_le hdata).ne' _ _

end Dinodes

/-! ## Files -/

/-- A file: its attributes and its contents, which are zero behind the end. -/
@[ext]
structure Node where
  attr : Attr
  data : Nat → UInt8

/-- An inode that is not in use. -/
def Node.free : Node := ⟨⟨0, 0, 0, 0, 0⟩, fun _ => 0⟩

/-- The file that an inode describes. -/
def Dinode.node (disk : Nat → Block) (d : Dinode) : Node where
  attr := ⟨d.type, d.major, d.minor, d.nlink, d.size⟩
  data := fun i => if i < d.size then content disk d i else 0

/-- Files, references and locks. -/
@[ext]
structure Fs.View where
  node : Nat → Node
  ref : Nat → Int
  locked : Nat → Bool

namespace Fs.View

/-- Change a file. -/
@[simps -fullyApplied ref locked]
def setNode (v : View) (n : Nat) (x : Node) : View :=
  { v with node := update v.node n x }

/-- Change the number of references. -/
@[simps -fullyApplied node locked]
def addRef (v : View) (n : Nat) (k : Int) : View :=
  { v with ref := update v.ref n (v.ref n + k) }

/-- Lock or unlock an inode. -/
@[simps -fullyApplied node ref]
def setLocked (v : View) (n : Nat) (b : Bool) : View :=
  { v with locked := update v.locked n b }

end Fs.View

namespace Fs

/-- The file of inode `n`. -/
def nodeOf (sb : Superblock) (disk : Nat → Block) (n : Nat) : Node :=
  if Allocated sb (dinodes sb disk) n then (dinodes sb disk n).node disk else .free

/-- What calls can observe of the inodes. -/
def view (fs : Fs) : View where
  node := nodeOf fs.sb fs.disk
  ref := fun n => (fs.icache n).ref
  locked := fun n => (fs.icache n).locked

/-- `active` counts the entries of the cache that are in use. -/
def Counted (icache : Nat → Inode) (active : Nat) : Prop :=
  ∃ S : Finset Nat, S.card = active ∧ ∀ n, n ∈ S ↔ 0 < (icache n).ref

/-- How an entry counts. -/
def inUse (ip : Inode) : Nat := if 0 < ip.ref then 1 else 0

/-- A change between entries in use. -/
theorem inUse_eq {ip ip' : Inode} {active : Nat} (h : 0 < ip.ref) (h' : 0 < ip'.ref) :
    active + inUse ip = active + inUse ip' := by
  rw [inUse, inUse, if_pos h, if_pos h']

/-- A change of one entry. -/
theorem Counted.update {icache : Nat → Inode} {active active' n : Nat} {ip : Inode}
    (h : Counted icache active) (hactive : active' + inUse (icache n) = active + inUse ip) :
    Counted (update icache n ip) active' := by
  obtain ⟨S, hcard, hmem⟩ := h
  have hrest : (S.erase n).card + inUse (icache n) = active := by
    by_cases href : 0 < (icache n).ref
    · rw [inUse, if_pos href, Finset.card_erase_add_one ((hmem n).mpr href), hcard]
    · rw [inUse, if_neg href, Finset.erase_eq_of_notMem fun hin => href ((hmem n).mp hin), hcard]
      rfl
  have hother : ∀ m, m ≠ n → (Function.update icache n ip m).ref = (icache m).ref := fun m hm => by
    rw [update_of_ne hm]
  by_cases href : 0 < ip.ref
  · refine ⟨insert n (S.erase n), ?_, fun m => ?_⟩
    · rw [Finset.card_insert_of_notMem (Finset.notMem_erase n S)]
      rw [inUse, inUse, if_pos href] at hactive
      rw [inUse] at hrest
      omega
    · by_cases hm : m = n
      · simp [hm, href]
      · simp [hm, hmem]
  · refine ⟨S.erase n, ?_, fun m => ?_⟩
    · rw [inUse, inUse, if_neg href] at hactive
      rw [inUse] at hrest
      omega
    · by_cases hm : m = n
      · simp [hm, href]
      · simp [hm, hmem]

/-- The invariant between two operations on inodes. -/
structure Ok (fs : Fs) : Prop where
  core : Core fs.sb fs.disk (dinodes fs.sb fs.disk)
  ref_nonneg : ∀ n, 0 ≤ (fs.icache n).ref
  coherent : ∀ n, 0 < (fs.icache n).ref → (fs.icache n).valid = true →
    Allocated fs.sb (dinodes fs.sb fs.disk) n ∧ (fs.icache n).din = dinodes fs.sb fs.disk n
  held : ∀ n, (fs.icache n).locked = true → 0 < (fs.icache n).ref ∧ (fs.icache n).valid = true
  orphan : ∀ n, Allocated fs.sb (dinodes fs.sb fs.disk) n →
    (dinodes fs.sb fs.disk n).nlink = 0 → 0 < (fs.icache n).ref ∧ (fs.icache n).valid = true
  counted : Counted fs.icache fs.active

/-- From `fs` to `fs'` the view has become `v`, and only blocks in `X` have been
logged. -/
structure Post (fs fs' : Fs) (v : View) (X : Set Nat) : Prop where
  ok : Ok fs'
  view : fs'.view = v
  sb : fs'.sb = fs.sb
  outstanding : fs'.outstanding = fs.outstanding
  logs : ∀ c ∈ fs'.logged, c ∈ fs.logged ∨ c ∈ X

/-- Two operations in a row. -/
theorem Post.trans {fs fs' fs'' : Fs} {v v' : View} {X Y : Set Nat} (h : Post fs fs' v X)
    (h' : Post fs' fs'' v' Y) : Post fs fs'' v' (X ∪ Y) where
  ok := h'.ok
  view := h'.view
  sb := h'.sb.trans h.sb
  outstanding := h'.outstanding.trans h.outstanding
  logs := by
    intro c hc
    rcases h'.logs c hc with hc | hc
    · exact (h.logs c hc).imp id Or.inl
    · exact Or.inr (Or.inr hc)

/-- More blocks may have been logged. -/
theorem Post.weaken {fs fs' : Fs} {v : View} {X Y : Set Nat} (h : Post fs fs' v X) (hsub : X ⊆ Y) :
    Post fs fs' v Y :=
  ⟨h.ok, h.view, h.sb, h.outstanding, fun c hc => (h.logs c hc).imp id fun hX => hsub hX⟩

/-! ## The cache -/

section Cache

variable {fs : Fs} {n : Nat}

/-- The type in the view is that on the disk. -/
theorem nodeOf_type (hn : 0 < n) (hlt : n < fs.sb.ninodes) :
    (fs.view.node n).attr.type = (fs.dinode n).type := by
  have htable : dinodes fs.sb fs.disk n = fs.dinode n := if_pos hlt
  change (nodeOf fs.sb fs.disk n).attr.type = _
  unfold nodeOf
  split
  · rw [htable]
    rfl
  next hfree =>
    simp only [Allocated, hn, hlt, true_and, not_not, htable] at hfree
    exact hfree.symm

/-- An inode with a type is allocated. -/
theorem allocated_of_type (htype : (fs.view.node n).attr.type ≠ 0) :
    Allocated fs.sb (dinodes fs.sb fs.disk) n := by
  by_contra hfree
  apply htype
  change (nodeOf fs.sb fs.disk n).attr.type = 0
  rw [nodeOf, if_neg hfree]
  rfl

/-- The file of an allocated inode. -/
theorem node_of_allocated (hn : Allocated fs.sb (dinodes fs.sb fs.disk) n) :
    fs.view.node n = (dinodes fs.sb fs.disk n).node fs.disk :=
  if_pos hn

/-- What the view shows of an inode that is cached and valid. -/
theorem Ok.node_valid (h : Ok fs) (href : 0 < (fs.icache n).ref)
    (hvalid : (fs.icache n).valid = true) :
    fs.view.node n = (fs.icache n).din.node fs.disk := by
  obtain ⟨halloc, hdin⟩ := h.coherent n href hvalid
  rw [node_of_allocated halloc, hdin]

/-- Replace one entry of the cache. -/
def setCache (fs : Fs) (n : Nat) (ip : Inode) (active : Nat) : Fs :=
  { fs with icache := update fs.icache n ip, active := active }

/-- A change of one entry of the cache. -/
theorem Ok.post_cache (h : Ok fs) (ip : Inode) (active : Nat) (href : 0 ≤ ip.ref)
    (hactive : active + inUse (fs.icache n) = fs.active + inUse ip)
    (hcoh : 0 < ip.ref → ip.valid = true → Allocated fs.sb (dinodes fs.sb fs.disk) n ∧
      ip.din = dinodes fs.sb fs.disk n)
    (hheld : ip.locked = true → 0 < ip.ref ∧ ip.valid = true)
    (horphan : Allocated fs.sb (dinodes fs.sb fs.disk) n → (dinodes fs.sb fs.disk n).nlink = 0 →
      0 < ip.ref ∧ ip.valid = true) {v : View} (hnode : v.node = fs.view.node)
    (hvref : v.ref = update fs.view.ref n ip.ref)
    (hvlocked : v.locked = update fs.view.locked n ip.locked) :
    Post fs (setCache fs n ip active) v ∅ := by
  have hcache : ∀ {P : Nat → Inode → Prop}, P n ip → (∀ m, P m (fs.icache m)) →
      ∀ m, P m ((setCache fs n ip active).icache m) := fun hself hother =>
    (forall_update_iff fs.icache _).mpr ⟨hself, fun m _ => hother m⟩
  exact ⟨⟨h.core, hcache (P := fun _ x => 0 ≤ x.ref) href h.ref_nonneg,
    hcache (P := fun m x => 0 < x.ref → x.valid = true →
      Allocated fs.sb (dinodes fs.sb fs.disk) m ∧ x.din = dinodes fs.sb fs.disk m) hcoh h.coherent,
    hcache (P := fun _ x => x.locked = true → 0 < x.ref ∧ x.valid = true) hheld h.held,
    hcache (P := fun m x => Allocated fs.sb (dinodes fs.sb fs.disk) m →
      (dinodes fs.sb fs.disk m).nlink = 0 → 0 < x.ref ∧ x.valid = true) horphan h.orphan,
    h.counted.update hactive⟩, View.ext hnode.symm ((comp_update Inode.ref ..).trans hvref.symm)
      ((comp_update Inode.locked ..).trans hvlocked.symm), rfl, rfl, fun c hc => Or.inl hc⟩

/-- One more reference to an inode that has an entry. -/
theorem Ok.post_ref (h : Ok fs) (href : 0 < (fs.icache n).ref) :
    Post fs (setCache fs n { fs.icache n with ref := (fs.icache n).ref + 1 } fs.active)
      (fs.view.addRef n 1) ∅ := by
  have hnext : 0 < (fs.icache n).ref + 1 := by omega
  exact h.post_cache { fs.icache n with ref := (fs.icache n).ref + 1 } fs.active hnext.le
    (inUse_eq href hnext) (fun _ => h.coherent n href) (fun hl => ⟨hnext, (h.held n hl).2⟩)
    (fun ha hz => ⟨hnext, (h.orphan n ha hz).2⟩) rfl rfl (update_eq_self n _).symm

/-- Locking an inode whose entry agrees with the disk, or is filled from it. -/
theorem Ok.post_lock {valid : Bool} {din : Dinode} (h : Ok fs) (href : 0 < (fs.icache n).ref)
    (halloc : Allocated fs.sb (dinodes fs.sb fs.disk) n) (hvalid : valid = true)
    (hdin : din = dinodes fs.sb fs.disk n) :
    Post fs
      (setCache fs n { fs.icache n with locked := true, valid := valid, din := din } fs.active)
      (fs.view.setLocked n true) ∅ :=
  h.post_cache { fs.icache n with locked := true, valid := valid, din := din } fs.active href.le
    (inUse_eq href href) (fun _ _ => ⟨halloc, hdin⟩) (fun _ => ⟨href, hvalid⟩)
    (fun _ _ => ⟨href, hvalid⟩) rfl (update_eq_self n _).symm rfl

/-- There is an entry of the cache for inode `n`. -/
def Cacheable (fs : Fs) (n : Nat) : Prop :=
  0 < fs.view.ref n ∨ fs.active < ninode

/-- `iget` adds a reference. -/
theorem wp_iget (h : Ok fs) :
    Wp (iget n) fs (fun _ fs' => Post fs fs' (fs.view.addRef n 1) ∅)
      (fun e _ => e = "iget: no inodes" ∧ ¬Cacheable fs n) := by
  simp only [iget, wp_bind, wp_get]
  split
  next href =>
    rw [wp_setInode]
    exact h.post_ref href
  next href =>
    have hzero : (fs.icache n).ref = 0 := by
      have hnonneg := h.ref_nonneg n
      omega
    split
    next hfull =>
      exact wp_throw.mpr ⟨rfl, fun hroom => hroom.elim href (Nat.not_lt.mpr hfull)⟩
    · simp only [wp_bind, wp_setInode, wp_modify]
      refine h.post_cache { fs.icache n with ref := 1, valid := false } (fs.active + 1)
        zero_le_one (by simp [inUse, hzero]) (fun _ hv => by cases hv)
        (fun hl => absurd (h.held n hl).1 href) (fun ha hz => absurd (h.orphan n ha hz).1 href) rfl
        ?_ (update_eq_self n _).symm
      simp [View.addRef, view, hzero]

/-- `idup` adds a reference. -/
theorem wp_idup {E : String → Fs → Prop} (h : Ok fs) (href : 0 < fs.view.ref n) :
    Wp (idup n) fs (fun _ fs' => Post fs fs' (fs.view.addRef n 1) ∅) E := by
  simp only [idup, wp_bind, wp_getInode, wp_setInode]
  exact h.post_ref href

/-- `ilock` of a referenced inode. -/
theorem wp_ilock (h : Ok fs) (hn : 0 < n) (hlt : n < fs.sb.ninodes) (href : 0 < fs.view.ref n) :
    Wp (ilock n) fs
      (fun _ fs' => (fs.view.node n).attr.type ≠ 0 ∧ fs.view.locked n = false ∧
        Post fs fs' (fs.view.setLocked n true) ∅)
      (fun e _ => e = "acquiresleep: deadlock" ∧ fs.view.locked n = true ∨
        e = "ilock: no type" ∧ (fs.view.node n).attr.type = 0) := by
  have htype := nodeOf_type hn hlt
  have htable : dinodes fs.sb fs.disk n = fs.dinode n := if_pos hlt
  change 0 < (fs.icache n).ref at href
  have hone : ¬(fs.icache n).ref < 1 := by omega
  simp only [ilock, wp_bind, wp_get, if_neg hone]
  split
  next hlocked =>
    exact wp_throw.mpr (Or.inl ⟨rfl, hlocked⟩)
  next hfree =>
    rw [Bool.not_eq_true] at hfree
    split
    next hvalid =>
      obtain ⟨halloc, hdin⟩ := h.coherent n href hvalid
      rw [wp_setInode]
      refine ⟨?_, hfree, h.post_lock href halloc hvalid hdin⟩
      rw [htype, ← htable]
      exact halloc.2.2
    · simp only [wp_bind, wp_setInode]
      split
      next hzero =>
        exact wp_throw.mpr (Or.inr ⟨rfl, htype.trans hzero⟩)
      next hne =>
        have halloc : Allocated fs.sb (dinodes fs.sb fs.disk) n := ⟨hn, hlt, by rwa [htable]⟩
        exact wp_pure.mpr ⟨by rwa [htype], hfree, h.post_lock href halloc rfl htable.symm⟩

/-- `iunlock` of a locked inode. -/
theorem wp_iunlock {E : String → Fs → Prop} (h : Ok fs) (hlocked : fs.view.locked n = true) :
    Wp (iunlock n) fs (fun _ fs' => Post fs fs' (fs.view.setLocked n false) ∅) E := by
  obtain ⟨href, hvalid⟩ := h.held n hlocked
  have hcond : ¬((fs.icache n).locked = false ∨ (fs.icache n).ref < 1) := by
    change (fs.icache n).locked = true at hlocked
    rw [hlocked]
    simp only [Bool.true_eq_false, false_or]
    omega
  simp only [iunlock, wp_bind, wp_getInode, if_neg hcond, wp_setInode]
  exact h.post_cache { fs.icache n with locked := false } fs.active href.le (inUse_eq href href)
    (fun _ => h.coherent n href) (fun hl => by cases hl) (fun _ _ => ⟨href, hvalid⟩) rfl
    (update_eq_self n _).symm rfl

/-- The fields of a locked inode. -/
theorem wp_attr {Q : Attr → Fs → Prop} {E : String → Fs → Prop} (h : Ok fs)
    (hlocked : fs.view.locked n = true) :
    Wp (attr n) fs Q E ↔ Q (fs.view.node n).attr fs := by
  obtain ⟨href, hvalid⟩ := h.held n hlocked
  rw [h.node_valid href hvalid, attr, wp_bind, wp_lockedInode hlocked, wp_pure]
  rfl

/-- `readi` on the view. -/
theorem wp_readi_view {ok : Nat → Bool} {off len : Nat} {E : String → Fs → Prop} (h : Ok fs)
    (hlocked : fs.view.locked n = true) (hlen : len < 2 ^ 32) :
    Wp (readi n ok off len) fs
      (fun r fs' => fs' = fs ∧ ∃ k ≤ min len ((fs.view.node n).attr.size - off),
        r = (List.range k).map (fun i => (fs.view.node n).data (off + i)) ∧
        ((∀ i, ok i = true) → off + len < 2 ^ 32 →
          k = min len ((fs.view.node n).attr.size - off))) E := by
  obtain ⟨href, hvalid⟩ := h.held n hlocked
  obtain ⟨halloc, hdin⟩ := h.coherent n href hvalid
  have hmap : ∀ bn, bn * bsize < (fs.icache n).din.size →
      addrOf fs.disk (fs.icache n).din bn ≠ 0 := by
    intro bn hlt
    rw [hdin] at hlt ⊢
    exact h.core.mapped n bn halloc hlt
  have hsize : (fs.icache n).din.size < 2 ^ 32 := by
    rw [hdin]
    exact (h.core.fits n).size
  rw [h.node_valid href hvalid]
  refine (wp_readi hlocked hsize hlen fun bn _ _ => hmap bn).imp ?_
  rintro r fs' ⟨hfs, k, hk, rfl, hall⟩
  refine ⟨hfs, k, hk, ?_, hall⟩
  apply List.map_congr_left
  intro i hi
  have hlt : off + i < (fs.icache n).din.size := by
    have hik := List.mem_range.mp hi
    omega
  change content _ _ _ = if off + i < (fs.icache n).din.size then _ else _
  rw [if_pos hlt]

end Cache

/-! ## Storing an inode -/

section StoreInode

variable {sb : Superblock} {D : Nat → Dinode} {disk disk' : Nat → Block} {n m : Nat} {d : Dinode}

/-- The contents of a file are those of blocks that are there. -/
theorem node_congr (hsame : ∀ i < d.size, content disk' d i = content disk d i) :
    d.node disk' = d.node disk := by
  refine Node.ext rfl (funext fun i => ?_)
  change (if i < d.size then _ else _) = if i < d.size then _ else _
  split
  next hi =>
    exact hsame i hi
  · rfl

/-- A byte within the size is on some block. -/
theorem mapped_byte (h : Core sb disk D) (hm : Allocated sb D m) {i : Nat} (hi : i < (D m).size) :
    addrOf disk (D m) (i / bsize) ≠ 0 :=
  h.mapped m _ hm ((Nat.div_mul_le_self i bsize).trans_lt hi)

/-- Storing an inode changes no contents. -/
theorem node_putDisk (h : Core sb disk D) (hm : Allocated sb D m) (hn : n < sb.ninodes) :
    (D m).node (putDisk sb disk n d) = (D m).node disk := by
  apply node_congr
  intro i hi
  have hmap := mapped_byte h hm hi
  have hother : ∀ s, slotAddr disk (D m) s ≠ 0 →
      putDisk sb disk n d (slotAddr disk (D m) s) = disk (slotAddr disk (D m) s) := by
    intro s hne
    have hdata := (h.owner_data (Core.owner_of_slot hm hne)).1
    exact update_of_ne ((h.wf.iblock_lt_nmeta hn).trans_le hdata).ne' _ _
  have haddr : addrOf (putDisk sb disk n d) (D m) (i / bsize) = addrOf disk (D m) (i / bsize) := by
    apply slotAddr_congr
    intro hne
    have hslot : slotAddr disk (D m) ndirect = (D m).addrs ndirect := slotAddr_direct le_rfl
    have hblock := hother ndirect (by rwa [hslot])
    rwa [hslot] at hblock
  unfold content
  rw [haddr]
  exact congrFun (hother _ hmap) _

/-- The contents of the other inodes. -/
theorem node_apart (h : Core sb disk D) (hapart : Apart sb D n disk disk') (hm : m ≠ n)
    (halloc : Allocated sb D m) : (D m).node disk' = (D m).node disk :=
  node_congr fun _ hi => hapart.content hm halloc (mapped_byte h halloc hi)

/-- The file of an inode that may be free. -/
def nodeIf (disk : Nat → Block) (d : Dinode) : Node :=
  if d.type = 0 then .free else d.node disk

/-- The files after inode `n` has been changed and stored. -/
theorem nodeOf_store (hcore : Core sb disk (dinodes sb disk))
    (hcore' : Core sb disk' (update (dinodes sb disk) n d))
    (hapart : Apart sb (dinodes sb disk) n disk disk') (hn : 0 < n) (hlt : n < sb.ninodes) :
    nodeOf sb (putDisk sb disk' n d) = update (nodeOf sb disk) n (nodeIf disk' d) := by
  have hfits := hcore'.fits_self
  have htable : dinodes sb (putDisk sb disk' n d) = update (dinodes sb disk) n d := by
    rw [dinodes_putDisk hlt hfits, dinodes_congr hcore.wf hapart.low]
  funext m
  unfold nodeOf
  rw [htable]
  by_cases hm : m = n
  · rw [hm, update_self, update_self, nodeIf]
    by_cases htype : d.type = 0
    · rw [if_neg (by simp [Allocated, htype]), if_pos htype]
    · have halloc : Allocated sb (update (dinodes sb disk) n d) n :=
        ⟨hn, hlt, by rwa [update_self]⟩
      have hnode := node_putDisk (d := d) hcore' halloc hlt
      rw [update_self] at hnode
      rw [if_pos halloc, if_neg htype, hnode]
  · rw [update_of_ne hm, update_of_ne hm]
    by_cases halloc : Allocated sb (dinodes sb disk) m
    · have halloc' := (allocated_update_of_ne (d := d) hm).mpr halloc
      have hnode := node_putDisk (d := d) hcore' halloc' hlt
      rw [update_of_ne hm] at hnode
      rw [if_pos halloc', if_pos halloc, hnode, node_apart hcore hapart hm halloc]
    · have halloc' : ¬Allocated sb (update (dinodes sb disk) n d) m := fun h =>
        halloc ((allocated_update_of_ne hm).mp h)
      rw [if_neg halloc', if_neg halloc]

variable {fs : Fs}

/-- Inode `n` has been changed to `d` and stored, and its entry of the cache is `ip`. -/
def stored (fs : Fs) (n : Nat) (d : Dinode) (disk : Nat → Block) (ip : Inode) (active : Nat)
    (logged : List Nat) : Fs :=
  { fs with
    disk := putDisk fs.sb disk n d
    icache := update fs.icache n ip
    active := active
    logged := logged }

/-- Writing one inode and its entry. -/
theorem Ok.post_stored (h : Ok fs) (hn : 0 < n) (hlt : n < fs.sb.ninodes)
    (hcore : Core fs.sb disk' (update (dinodes fs.sb fs.disk) n d))
    (hapart : Apart fs.sb (dinodes fs.sb fs.disk) n fs.disk disk') (ip : Inode) (active : Nat)
    (href : 0 ≤ ip.ref) (hactive : active + inUse (fs.icache n) = fs.active + inUse ip)
    (hcoh : 0 < ip.ref → ip.valid = true → d.type ≠ 0 ∧ ip.din = d)
    (hheld : ip.locked = true → 0 < ip.ref ∧ ip.valid = true)
    (horphan : d.type ≠ 0 → d.nlink = 0 → 0 < ip.ref ∧ ip.valid = true)
    {L : List Nat} {X : Set Nat} (hlogs : ∀ c ∈ L, c ∈ fs.logged ∨ c ∈ X) :
    Post fs (stored fs n d disk' ip active L)
      ⟨update fs.view.node n (nodeIf disk' d), update fs.view.ref n ip.ref,
        update fs.view.locked n ip.locked⟩ X := by
  have hfits := hcore.fits_self
  have htable : dinodes fs.sb (putDisk fs.sb disk' n d) =
      update (dinodes fs.sb fs.disk) n d := by
    rw [dinodes_putDisk hlt hfits, dinodes_congr h.core.wf hapart.low]
  have hself : Allocated fs.sb (update (dinodes fs.sb fs.disk) n d) n ↔ d.type ≠ 0 := by
    simp only [Allocated, update_self, hn, hlt, true_and]
  refine ⟨⟨?_, ?_, ?_, ?_, ?_, h.counted.update hactive⟩, ?_, rfl, rfl, hlogs⟩
  · change Core fs.sb (putDisk fs.sb disk' n d) (dinodes fs.sb (putDisk fs.sb disk' n d))
    rw [htable]
    exact hcore.putDisk hlt
  · intro m
    by_cases hm : m = n
    · simpa [stored, hm] using href
    · simpa [stored, hm] using h.ref_nonneg m
  · intro m
    change _ → _ → Allocated fs.sb (dinodes fs.sb (putDisk fs.sb disk' n d)) m ∧
      _ = dinodes fs.sb (putDisk fs.sb disk' n d) m
    rw [htable]
    by_cases hm : m = n
    · simpa [stored, hm, hself] using hcoh
    · simpa [stored, hm, allocated_update_of_ne hm] using h.coherent m
  · intro m
    by_cases hm : m = n
    · simpa [stored, hm] using hheld
    · simpa [stored, hm] using h.held m
  · intro m
    change Allocated fs.sb (dinodes fs.sb (putDisk fs.sb disk' n d)) m →
      (dinodes fs.sb (putDisk fs.sb disk' n d) m).nlink = 0 → _
    rw [htable]
    by_cases hm : m = n
    · simpa [stored, hm, hself] using horphan
    · simpa [stored, hm, allocated_update_of_ne hm] using h.orphan m
  · exact View.ext (nodeOf_store h.core hcore hapart hn hlt) (comp_update Inode.ref ..)
      (comp_update Inode.locked ..)

end StoreInode

end Fs

end Xv6
