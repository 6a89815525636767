import Mathlib.Tactic
import Xv6.Fs.View

/-!
# Operations that change files

What the operations that store an inode do to the view.

Main results:

- Theorem {lit}`wp_writei`: a range of the contents is replaced.
- Theorem {lit}`wp_itrunc`: the contents become empty.
- Theorem {lit}`wp_iput`: a file is freed with its last reference and link.
- Theorem {lit}`wp_ialloc`: a free inode becomes an empty file.
-/

namespace Xv6

open Lib Function

/-! ## Changing one entry of the table -/

section Swap

variable {sb : Superblock} {D : Nat → Dinode} {disk : Nat → Block} {n : Nat} {d d' : Dinode}

/-- The slots depend on the addresses only. -/
theorem slotAddr_of_addrs (haddrs : d'.addrs = d.addrs) (s : Nat) :
    slotAddr disk d' s = slotAddr disk d s := by
  simp only [slotAddr, haddrs]

/-- Replace an inode by one with the same blocks. -/
theorem Core.swap (h : Core sb disk (update D n d)) (hfits : d'.Fits)
    (howner : ∀ s, owner sb disk (update D n d') (n, s) =
      owner sb disk (update D n d) (n, s))
    (hsize : d'.type ≠ 0 → d'.size ≤ maxfile * bsize)
    (hmapped : d'.type ≠ 0 → ∀ bn, bn * bsize < d'.size → addrOf disk d' bn ≠ 0) :
    Core sb disk (update D n d') := by
  refine h.replace .refl hfits ?_ hsize hmapped
  have heq : owner sb disk (update D n d') = owner sb disk (update D n d) := by
    funext ⟨m, s⟩
    by_cases hm : m = n
    · rw [hm, howner s]
    · rw [owner_update_of_ne hm, owner_update_of_ne hm]
  rw [heq]
  exact h.exact

/-- Change the fields of an inode other than its type and addresses. -/
theorem Core.setFields (h : Core sb disk (update D n d)) (hfits : d'.Fits)
    (htype : d'.type = d.type) (haddrs : d'.addrs = d.addrs)
    (hsize : d'.size ≤ maxfile * bsize)
    (hmapped : ∀ bn, bn * bsize < d'.size → addrOf disk d bn ≠ 0) :
    Core sb disk (update D n d') := by
  refine h.swap hfits ?_ (fun _ => hsize) fun _ bn hlt => ?_
  · intro s
    simp only [owner, allocated_self htype, update_self, slotAddr_of_addrs haddrs]
  · unfold addrOf at hmapped ⊢
    rw [slotAddr_of_addrs haddrs]
    exact hmapped bn hlt

/-- Change the type of an inode without blocks. -/
theorem Core.setType (h : Core sb disk (update D n d)) (hfits : d'.Fits)
    (hold : d.type = 0 ∨ d.addrs = fun _ => 0) (haddrs : d'.addrs = fun _ => 0)
    (hsize : d'.size = 0) : Core sb disk (update D n d') := by
  have hzero : ∀ {x : Dinode} (s : Nat), (x.addrs = fun _ => 0) → slotAddr disk x s = 0 := by
    intro x s hx
    by_cases hs : s ≤ ndirect
    · rw [slotAddr_direct hs, hx]
    · exact slotAddr_of_no_indirect (by omega) (by rw [hx])
  refine h.swap hfits ?_ (fun _ => by rw [hsize]; exact Nat.zero_le _) fun _ bn hlt => ?_
  · intro s
    rw [owner_eq_none (by simp [hzero s haddrs]), owner_eq_none]
    rintro ⟨halloc, hne⟩
    have htype := halloc.2.2
    rw [update_self] at htype hne
    rcases hold with hold | hold
    · exact htype hold
    · exact hne (hzero s hold)
  · rw [hsize] at hlt
    exact absurd hlt (Nat.not_lt_zero _)

end Swap

/-! ## Fields -/

namespace Node

/-- Change `major`, `minor` and `nlink`. -/
def setFields (x : Node) (major minor nlink : Nat) : Node :=
  { x with attr := { x.attr with major := major, minor := minor, nlink := nlink } }

/-- The file after `writei` of `len` bytes at `off`: the bytes that could be read from
the source have replaced the old ones. -/
def write (x : Node) (src : Source) (off len : Nat) : Node where
  attr := { x.attr with size := max x.attr.size (Fs.reach off len (Fs.mapped src 0 len)) }
  data := fun i =>
    if i < max x.attr.size (Fs.reach off len (Fs.mapped src 0 len)) then
      if off ≤ i ∧ i < off + Fs.mapped src 0 len then (src (i - off)).getD 0 else x.data i
    else 0

/-- The file after `itrunc`. -/
def empty (x : Node) : Node where
  attr := { x.attr with size := 0 }
  data := fun _ => 0

end Node

namespace Fs

/-- The other inodes are stored as before, with the same addresses. -/
def Others (n : Nat) (fs fs' : Fs) : Prop :=
  ∀ m, m ≠ n → dinodes fs'.sb fs'.disk m = dinodes fs.sb fs.disk m ∧
    (Allocated fs.sb (dinodes fs.sb fs.disk) m → ∀ s,
      slotAddr fs'.disk (dinodes fs.sb fs.disk m) s = slotAddr fs.disk (dinodes fs.sb fs.disk m) s)

section Ops

variable {fs : Fs} {n : Nat} {E : String → Fs → Prop}

/-- Writing one inode leaves the others alone. -/
theorem others_stored {d : Dinode} {disk' : Nat → Block} {ip : Inode} {active : Nat} {L : List Nat}
    (h : Ok fs) (hlt : n < fs.sb.ninodes)
    (hcore : Core fs.sb disk' (update (dinodes fs.sb fs.disk) n d))
    (hapart : Apart fs.sb (dinodes fs.sb fs.disk) n fs.disk disk') :
    Others n fs (stored fs n d disk' ip active L) := by
  have hfits := hcore.fits_self
  intro m hm
  constructor
  · change dinodes fs.sb (putDisk fs.sb disk' n d) m = _
    rw [dinodes_putDisk hlt hfits, dinodes_congr h.core.wf hapart.low, update_of_ne hm]
  · intro halloc s
    rw [← hapart.slotAddr hm halloc]
    apply slotAddr_congr
    intro hne
    have halloc' := (allocated_update_of_ne (d := d) hm).mpr halloc
    have hown := Core.owner_indirect disk' halloc' (by rwa [update_of_ne hm])
    rw [update_of_ne hm] at hown
    have hdata := (hcore.owner_data hown).1
    exact update_of_ne ((h.core.wf.iblock_lt_nmeta hlt).trans_le hdata).ne' _ _

/-- What is known of a locked inode. -/
theorem Ok.locked (h : Ok fs) (hlocked : fs.view.locked n = true) :
    0 < (fs.icache n).ref ∧ (fs.icache n).valid = true ∧
      Allocated fs.sb (dinodes fs.sb fs.disk) n ∧ (fs.icache n).din = dinodes fs.sb fs.disk n :=
  have hheld := h.held n hlocked
  ⟨hheld.1, hheld.2, h.coherent n hheld.1 hheld.2⟩

/-- The entry of a locked inode agrees with the disk. -/
theorem Ok.update_locked (h : Ok fs) (hlocked : fs.view.locked n = true) :
    update (dinodes fs.sb fs.disk) n (fs.icache n).din = dinodes fs.sb fs.disk := by
  rw [(h.locked hlocked).2.2.2, update_eq_self]

/-- The core, at the entry of a locked inode. -/
theorem Ok.core_locked (h : Ok fs) (hlocked : fs.view.locked n = true) :
    Core fs.sb fs.disk (update (dinodes fs.sb fs.disk) n (fs.icache n).din) := by
  rw [h.update_locked hlocked]
  exact h.core

/-- The contents of a locked inode are not too large and have no holes. -/
theorem Ok.size_locked (h : Ok fs) (hlocked : fs.view.locked n = true) :
    (fs.icache n).din.size ≤ maxfile * bsize ∧
      ∀ bn, bn * bsize < (fs.icache n).din.size → addrOf fs.disk (fs.icache n).din bn ≠ 0 := by
  obtain ⟨-, -, halloc, hdin⟩ := h.locked hlocked
  rw [hdin]
  exact ⟨h.core.size_le n halloc, fun bn => h.core.mapped n bn halloc⟩

/-- Storing a new version of a locked inode. -/
theorem Ok.post_locked {d : Dinode} {disk' : Nat → Block} {L : List Nat} {X : Set Nat} (h : Ok fs)
    (hlocked : fs.view.locked n = true) (htype : d.type ≠ 0)
    (hcore : Core fs.sb disk' (update (dinodes fs.sb fs.disk) n d))
    (hapart : Apart fs.sb (dinodes fs.sb fs.disk) n fs.disk disk')
    (hlogs : ∀ c ∈ L, c ∈ fs.logged ∨ c ∈ X) :
    Post fs (during fs n d (putDisk fs.sb disk' n d) L)
      (fs.view.setNode n (d.node disk')) X := by
  obtain ⟨href, hvalid, halloc, -⟩ := h.locked hlocked
  have hpost := h.post_stored halloc.1 halloc.2.1 hcore hapart { fs.icache n with din := d }
    fs.active href.le (inUse_eq href href) (fun _ _ => ⟨htype, rfl⟩) (fun _ => ⟨href, hvalid⟩)
    (fun _ _ => ⟨href, hvalid⟩) hlogs
  have hview : (⟨update fs.view.node n (nodeIf disk' d),
      update fs.view.ref n (fs.icache n).ref,
      update fs.view.locked n (fs.icache n).locked⟩ : View) =
        fs.view.setNode n (d.node disk') := by
    rw [nodeIf, if_neg htype]
    exact View.ext rfl (update_eq_self n _) (update_eq_self n _)
  rw [← hview]
  exact hpost

/-- Copying the cached inode to disk. -/
theorem wp_setAttr {major minor nlink : Nat} (h : Ok fs) (hop : 0 < fs.outstanding)
    (hlocked : fs.view.locked n = true) (hmajor : major < 2 ^ 16) (hminor : minor < 2 ^ 16)
    (hnlink : nlink < 2 ^ 16) :
    Wp (setAttr n major minor nlink) fs
      (fun _ fs' => Post fs fs'
        (fs.view.setNode n ((fs.view.node n).setFields major minor nlink)) {iblock fs.sb n}) E := by
  obtain ⟨href, hvalid, halloc, hdin⟩ := h.locked hlocked
  have hnode := h.node_valid href hvalid
  have hfits : (fs.icache n).din.Fits := by
    rw [hdin]
    exact h.core.fits n
  have hcore : Core fs.sb fs.disk (update (dinodes fs.sb fs.disk) n
      { (fs.icache n).din with major := major, minor := minor, nlink := nlink }) :=
    (h.core_locked hlocked).setFields
      ⟨hfits.type, hmajor, hminor, hnlink, hfits.size, hfits.addr, hfits.outside⟩ rfl rfl
      (h.size_locked hlocked).1 (h.size_locked hlocked).2
  simp only [setAttr, wp_bind, wp_lockedInode hlocked, wp_modifyDinode]
  rw [wp_iupdate (by exact hop)]
  have htype : (fs.icache n).din.type ≠ 0 := by
    rw [hdin]
    exact halloc.2.2
  have hpost := h.post_locked (X := {iblock fs.sb n}) (L := fs.logged ++ [iblock fs.sb n]) hlocked
    (by exact htype) hcore .refl (fun c hc => by simpa using hc)
  have hnew : ({ (fs.icache n).din with major := major, minor := minor, nlink := nlink } :
      Dinode).node fs.disk = (fs.view.node n).setFields major minor nlink := by
    rw [hnode]
    rfl
  rw [hnew] at hpost
  simpa [during] using hpost

/-! ## `writei` -/

/-- The file after the loop of `writei`. -/
theorem node_written {D : Nat → Dinode} {src : Source} {off len : Nat} {S : Finset Nat}
    {d d' : Dinode} {disk disk' : Nat → Block} {L L' : List Nat}
    (hmap : ∀ i < d.size, addrOf disk d (i / bsize) ≠ 0) (hoff : off ≤ d.size)
    (hwritten : Written fs.sb D n src 0 off len S d disk L d' disk' L') :
    ({ d' with size := max d.size (reach off len (mapped src 0 len)) } : Dinode).node disk' =
      (d.node disk).write src off len := by
  have hfields := hwritten.grow.fields
  have hreach : reach off len (mapped src 0 len) ≤ off + mapped src 0 len := by
    have hk : mapped src 0 len ≤ len := mapped_le
    unfold reach
    split
    · omega
    · exact max_le (Nat.le_add_right _ _) (Nat.div_mul_le_self _ _)
  refine Node.ext ?_ (funext fun i => ?_)
  · simp only [Dinode.node, Node.write]
    rw [hfields]
  · change (if i < max d.size _ then content disk' _ i else 0) = if i < max d.size _ then _ else 0
    split
    next hi =>
      have hsame :
          content disk' { d' with size := max d.size (reach off len (mapped src 0 len)) } i =
          content disk' d' i := rfl
      rw [hsame]
      split
      next hrange =>
        have hstored := hwritten.stored (i - off) (by omega)
        rw [Nat.add_sub_cancel' hrange.1, Nat.zero_add] at hstored
        exact hstored
      next hout =>
        have hold : i < d.size := by omega
        rw [hwritten.kept i (hmap i hold) (by omega)]
        change _ = if i < d.size then _ else _
        rw [if_pos hold]
    · rfl

/-- A copy of an inode with a size that has only grown. -/
def grown (d : Dinode) (size reached : Nat) : Dinode :=
  { d with size := max size reached }

/-- The state after the loop of `writei`, once the inode has been stored. -/
theorem Ok.post_written {src : Source} {off len : Nat} {S : Finset Nat} {d' : Dinode}
    {disk' : Nat → Block} {L' : List Nat} (h : Ok fs) (hlocked : fs.view.locked n = true)
    (hoff : off ≤ (fs.icache n).din.size) (hend : off + len ≤ maxfile * bsize)
    (hwritten : Written fs.sb (dinodes fs.sb fs.disk) n src 0 off len S (fs.icache n).din fs.disk
      fs.logged d' disk' L') :
    let d'' := grown d' (fs.icache n).din.size (reach off len (mapped src 0 len))
    let fs' := during fs n d'' (putDisk fs.sb disk' n d'') (L' ++ [iblock fs.sb n])
    Others n fs fs' ∧
      Post fs fs' (fs.view.setNode n (((fs.icache n).din.node fs.disk).write src off len))
        ({iblock fs.sb n} ∪ bitmap fs.sb ∪ (S.image (slotAddr disk' d') : Finset Nat)) := by
  intro d'' fs'
  obtain ⟨href, hvalid, halloc, hdin⟩ := h.locked hlocked
  obtain ⟨hsize, hmap⟩ := h.size_locked hlocked
  have hbig : max (fs.icache n).din.size (reach off len (mapped src 0 len)) ≤
      maxfile * bsize := by
    have hk : mapped src 0 len ≤ len := mapped_le
    apply max_le hsize
    unfold reach
    split
    · exact hend
    · exact max_le (by omega) ((Nat.div_mul_le_self _ _).trans (by omega))
  have hfits := hwritten.grow.core.fits_self
  have htype : d''.type ≠ 0 := by
    change d'.type ≠ 0
    rw [hwritten.grow.fields, hdin]
    exact halloc.2.2
  have hcore : Core fs.sb disk' (update (dinodes fs.sb fs.disk) n d'') := by
    refine hwritten.grow.core.setFields ⟨hfits.type, hfits.major, hfits.minor, hfits.nlink, ?_,
      hfits.addr, hfits.outside⟩ rfl rfl hbig ?_
    · exact hbig.trans_lt (by decide)
    · intro bn hlt
      rcases lt_max_iff.mp hlt with hlt | hlt
      · exact hwritten.grow.mapped (hmap bn hlt)
      · exact hwritten.reached bn hlt
  have hnode : d''.node disk' = ((fs.icache n).din.node fs.disk).write src off len :=
    node_written (fun i hi => hmap _ ((Nat.div_mul_le_self i bsize).trans_lt hi)) hoff hwritten
  constructor
  · exact others_stored h halloc.2.1 hcore hwritten.grow.apart
  · rw [← hnode]
    apply h.post_locked hlocked htype hcore hwritten.grow.apart
    intro c hc
    rcases List.mem_append.mp hc with hc | hc
    · rcases hwritten.logs c hc with hc | hc | ⟨s, hs, rfl⟩
      · exact Or.inl hc
      · exact Or.inr (Or.inl (Or.inr hc))
      · exact Or.inr (Or.inr (Finset.mem_image_of_mem _ hs))
    · exact Or.inr (Or.inl (Or.inl (List.mem_singleton.mp hc)))

/-- `writei` of a locked inode. -/
theorem wp_writei {src : Source} {off len : Nat} (h : Ok fs) (hop : 0 < fs.outstanding)
    (hlocked : fs.view.locked n = true) (hlen : len < 2 ^ 32) :
    Wp (writei n src off len) fs
      (fun r fs' =>
        (r = -1 ∧ fs' = fs ∧
          ((fs.view.node n).attr.size < off ∨ maxfile * bsize < off + len)) ∨
        (r = len ∧ off ≤ (fs.view.node n).attr.size ∧ off + len ≤ maxfile * bsize ∧
          Others n fs fs' ∧
          ∃ Y : Finset Nat, Y.card ≤ (slotsOf (off / bsize) (blocks (off + len))).card ∧
            Post fs fs' (fs.view.setNode n ((fs.view.node n).write src off len))
              ({iblock fs.sb n} ∪ bitmap fs.sb ∪ Y)))
      (fun e _ => e = "balloc: out of blocks" ∧
        off ≤ (fs.view.node n).attr.size ∧ off + len ≤ maxfile * bsize ∧
        (freeBlocks fs.sb fs.disk).card < (missing fs.disk (dinodes fs.sb fs.disk n)
          (slotsOf (off / bsize) (blocks (off + len)))).card) := by
  obtain ⟨href, hvalid, halloc, hdin⟩ := h.locked hlocked
  have hnode := h.node_valid href hvalid
  obtain ⟨hsize, hmap⟩ := h.size_locked hlocked
  have hbound : maxfile * bsize < 2 ^ 32 := by decide
  have hattr : (fs.view.node n).attr.size = (fs.icache n).din.size := by
    rw [hnode]
    rfl
  rw [hattr, hnode, ← hdin]
  simp only [writei, wp_bind, wp_lockedInode hlocked]
  split
  next hbad =>
    refine wp_pure.mpr (Or.inl ⟨rfl, rfl, ?_⟩)
    by_contra hgood
    rw [not_or, Nat.not_lt, Nat.not_lt] at hgood
    rw [uint_of_lt (by omega)] at hbad
    omega
  next hgood =>
    rw [not_or, Nat.not_lt, Nat.not_lt] at hgood
    have hno : off + len < 2 ^ 32 := add_lt_of_uint (by omega) hlen hgood.2
    rw [uint_of_lt hno] at hgood ⊢
    split
    next hlong =>
      exact wp_pure.mpr (Or.inl ⟨rfl, rfl, Or.inr hlong⟩)
    next hshort =>
      rw [Nat.not_lt] at hshort
      obtain rfl | hzero := eq_or_ne len 0
      · have hsame : ((fs.icache n).din.node fs.disk).write src off 0 =
            (fs.icache n).din.node fs.disk := by
          have hmax : max (fs.icache n).din.size off = (fs.icache n).din.size :=
            max_eq_left hgood.1
          refine Node.ext ?_ (funext fun i => ?_)
          · simp [Node.write, Dinode.node, reach, mapped, hmax]
          · simp only [Node.write, Dinode.node, reach, mapped, if_true, Nat.add_zero, hmax]
            split
            next hi =>
              rw [if_neg (by omega)]
            · rfl
        have hview : fs.view.setNode n ((fs.icache n).din.node fs.disk) = fs.view := by
          rw [← hnode]
          exact View.ext (update_eq_self n _) rfl rfl
        rw [writeLoop, wp_bind, wp_pure, if_neg (lt_irrefl 0), wp_pure, hsame, hview]
        refine Or.inr ⟨rfl, hgood.1, hshort, fun _ _ => ⟨rfl, fun _ _ => rfl⟩, ∅, by simp, ?_⟩
        exact ⟨h, rfl, rfl, rfl, fun c hc => Or.inl hc⟩
      · nth_rewrite 1 [← during_self fs n]
        rw [wp_bind]
        refine (wp_writeLoop hop (le_refl len) (h.core_locked hlocked)
          (by rwa [h.update_locked hlocked]) hshort
          (fun bn hlt => hmap bn (by omega))).mono ?_ ?_
        · rintro r _ ⟨rfl, S, d', disk', L', rfl, hwritten⟩
          have hsize' : d'.size = (fs.icache n).din.size := by rw [hwritten.grow.fields]
          have hmodify : (if reach off len (mapped src 0 len) > d'.size then
              { d' with size := reach off len (mapped src 0 len) } else d') =
              grown d' (fs.icache n).din.size (reach off len (mapped src 0 len)) := by
            unfold grown
            split
            · rw [max_eq_right (by omega)]
            · rw [max_eq_left (by omega), ← hsize']
          obtain ⟨hothers, hpost⟩ := h.post_written hlocked hgood.1 hshort hwritten
          rw [if_pos (Nat.pos_of_ne_zero hzero)]
          simp only [wp_bind, wp_modifyDinode, during_icache, hmodify]
          rw [wp_iupdate (by exact hop), wp_pure]
          refine Or.inr ⟨rfl, hgood.1, hshort, ?_, S.image (slotAddr disk' d'), ?_, ?_⟩
          · simpa [during] using hothers
          · exact Finset.card_image_le.trans (Finset.card_le_card hwritten.slots)
          · simpa [during] using hpost
        · rintro e _ ⟨rfl, hfew⟩
          exact ⟨rfl, hgood.1, hshort, hfew⟩

/-! ## `itrunc` and `iput` -/

/-- `itrunc` of a locked inode. -/
theorem wp_itrunc (h : Ok fs) (hop : 0 < fs.outstanding) (hlocked : fs.view.locked n = true) :
    Wp (itrunc n) fs
      (fun _ fs' => Others n fs fs' ∧ (fs'.icache n).din.addrs = (fun _ => 0) ∧
        Post fs fs' (fs.view.setNode n (fs.view.node n).empty) ({iblock fs.sb n} ∪ bitmap fs.sb))
      E := by
  obtain ⟨href, hvalid, halloc, hdin⟩ := h.locked hlocked
  rw [itrunc, wp_bind, wp_lockedInode hlocked, wp_bind]
  nth_rewrite 1 [← during_self fs n]
  refine (wp_truncBlocks hop (h.core_locked hlocked) (by rwa [h.update_locked hlocked])).imp ?_
  rintro _ _ ⟨disk', L', rfl, hcore, hapart, hlogs⟩
  rw [wp_iupdate (by exact hop), during_icache]
  have htype : (emptied (fs.icache n).din).type ≠ 0 := by
    change (fs.icache n).din.type ≠ 0
    rw [hdin]
    exact halloc.2.2
  have hnode : (emptied (fs.icache n).din).node disk' = (fs.view.node n).empty := by
    rw [h.node_valid href hvalid]
    refine Node.ext rfl (funext fun i => ?_)
    simp [Dinode.node, emptied, Node.empty]
  refine ⟨others_stored h halloc.2.1 hcore hapart, ?_, ?_⟩
  · simp [emptied]
  · rw [← hnode]
    apply h.post_locked hlocked htype hcore hapart
    intro c hc
    rcases List.mem_append.mp hc with hc | hc
    · exact (hlogs c hc).imp id Or.inr
    · exact Or.inr (Or.inl (List.mem_singleton.mp hc))

/-- Freeing an inode without links whose only reference is the caller's. -/
theorem wp_ifree (h : Ok fs) (hop : 0 < fs.outstanding) (hone : (fs.icache n).ref = 1)
    (hvalid : (fs.icache n).valid = true) (hfree : (fs.icache n).locked = false) :
    Wp (ifree n) fs
      (fun _ fs' => Post fs fs' (fs.view.setNode n .free) ({iblock fs.sb n} ∪ bitmap fs.sb)) E := by
  have href : 0 < (fs.icache n).ref := by omega
  obtain ⟨halloc, hdin⟩ := h.coherent n href hvalid
  have hlock : Post fs (setCache fs n { fs.icache n with locked := true } fs.active)
      (fs.view.setLocked n true) ∅ :=
    h.post_lock href halloc hvalid hdin
  have hnot : ¬(fs.icache n).locked = true := by simp [hfree]
  simp only [ifree, wp_bind, wp_getInode, if_neg hnot, wp_setInode]
  refine (wp_itrunc hlock.ok hop (by simp [view, setCache])).imp ?_
  rintro _ fs₂ ⟨-, haddrs, htrunc⟩
  have hone₂ : (fs₂.icache n).ref = 1 := by
    have hview := congrFun (congrArg View.ref htrunc.view) n
    exact hview.trans (by simp [View.setNode, view, setCache, hone])
  have hlocked₂ : fs₂.view.locked n = true := by
    rw [htrunc.view]
    simp [View.setNode, view, setCache]
  obtain ⟨-, hvalid₂, halloc₂, hdin₂⟩ := htrunc.ok.locked hlocked₂
  have hsize : (fs₂.icache n).din.size = 0 := by
    have hnode := htrunc.ok.node_valid (by omega) hvalid₂
    have hview := congrFun (congrArg View.node htrunc.view) n
    rw [hnode] at hview
    simpa [View.setNode, Node.empty, Dinode.node] using congrArg (fun x => x.attr.size) hview
  have hfits : (fs₂.icache n).din.Fits := by
    rw [hdin₂]
    exact htrunc.ok.core.fits n
  have hcore : Core fs₂.sb fs₂.disk (update (dinodes fs₂.sb fs₂.disk) n
      { (fs₂.icache n).din with type := 0 }) :=
    (htrunc.ok.core_locked hlocked₂).setType ⟨Nat.two_pow_pos 16, hfits.major, hfits.minor,
      hfits.nlink, hfits.size, hfits.addr, hfits.outside⟩ (Or.inr haddrs) haddrs hsize
  have hop₂ : 0 < fs₂.outstanding := by
    rw [htrunc.outstanding]
    exact hop
  simp only [wp_modifyDinode]
  rw [wp_iupdate (by exact hop₂)]
  have hpost := htrunc.ok.post_stored (X := {iblock fs.sb n})
    (L := fs₂.logged ++ [iblock fs₂.sb n]) halloc₂.1 halloc₂.2.1 hcore .refl
    ⟨1, false, false, { (fs₂.icache n).din with type := 0 }⟩ fs₂.active zero_le_one
    (inUse_eq (htrunc.ok.held n hlocked₂).1 zero_lt_one) (fun _ hv => by cases hv)
    (fun hl => by cases hl) (fun hne => absurd rfl hne)
    (fun c hc => by
      rcases List.mem_append.mp hc with hc | hc
      · exact Or.inl hc
      · refine Or.inr ?_
        rw [List.mem_singleton.mp hc, htrunc.sb]
        rfl)
  have hall := (hlock.trans htrunc).trans hpost
  have hview : (⟨update fs₂.view.node n
      (nodeIf fs₂.disk { (fs₂.icache n).din with type := 0 }), update fs₂.view.ref n 1,
      update fs₂.view.locked n false⟩ : View) = fs.view.setNode n .free := by
    have hrefn : update fs.view.ref n 1 = fs.view.ref :=
      (congrArg _ hone.symm).trans (update_eq_self n _)
    have hlockn : update fs.view.locked n false = fs.view.locked :=
      (congrArg _ hfree.symm).trans (update_eq_self n _)
    rw [htrunc.view, hlock.view, nodeIf, if_pos rfl]
    refine View.ext (update_idem _ _ _) hrefn ?_
    exact (update_idem _ _ _).trans hlockn
  rw [hview] at hall
  have hfinal := hall.weaken (Y := {iblock fs.sb n} ∪ bitmap fs.sb) (by
    intro c hc
    simp only [Set.mem_union, Set.mem_empty_iff_false, false_or] at hc ⊢
    rcases hc with hc | hc
    · exact hc
    · exact Or.inl hc)
  simpa [stored, hone₂] using hfinal

/-- Dropping a reference that is not the last one of a file without links. -/
theorem wp_dropRef (h : Ok fs) (href : 0 < fs.view.ref n)
    (hlocked : fs.view.locked n = true → 1 < fs.view.ref n)
    (horphan : (fs.view.node n).attr.type ≠ 0 → (fs.view.node n).attr.nlink = 0 →
      1 < fs.view.ref n) :
    Wp (dropRef n) fs (fun _ fs' => Post fs fs' (fs.view.addRef n (-1)) ∅) E := by
  change 0 < (fs.icache n).ref at href
  have hpost : ∀ active, active + 1 = fs.active + (if 0 < (fs.icache n).ref - 1 then 1 else 0) →
      Post fs (setCache fs n { fs.icache n with ref := (fs.icache n).ref - 1 } active)
        (fs.view.addRef n (-1)) ∅ := by
    intro active hactive
    have hleft : 0 ≤ (fs.icache n).ref - 1 := by omega
    refine h.post_cache { fs.icache n with ref := (fs.icache n).ref - 1 } active hleft
      (by rw [inUse, if_pos href]; exact hactive) (fun _ => h.coherent n href) ?_ ?_ rfl rfl
      (update_eq_self n _).symm
    · intro hl
      have hmore : 1 < (fs.icache n).ref := hlocked hl
      exact ⟨by change 0 < (fs.icache n).ref - 1; omega, (h.held n hl).2⟩
    · intro ha hz
      rw [node_of_allocated ha] at horphan
      have hmore : 1 < (fs.icache n).ref := horphan ha.2.2 hz
      exact ⟨by change 0 < (fs.icache n).ref - 1; omega, (h.orphan n ha hz).2⟩
  simp only [dropRef, wp_bind, wp_getInode, wp_setInode]
  split
  next hlast =>
    obtain ⟨S, hcard, hmem⟩ := h.counted
    have hpos : 0 < S.card := Finset.card_pos.mpr ⟨n, (hmem n).mpr href⟩
    rw [wp_modify]
    exact hpost (fs.active - 1) (by rw [if_neg (by omega)]; omega)
  next hmore =>
    rw [wp_pure]
    exact hpost fs.active (by rw [if_pos (by omega)])

/-- `iput` frees a file with its last reference if it has no links. -/
theorem wp_iput (h : Ok fs) (hop : 0 < fs.outstanding) (href : 0 < fs.view.ref n)
    (hlocked : fs.view.locked n = true → 1 < fs.view.ref n) :
    Wp (iput n) fs
      (fun _ fs' =>
        if fs.view.ref n = 1 ∧ (fs.view.node n).attr.type ≠ 0 ∧ (fs.view.node n).attr.nlink = 0
        then Post fs fs' ((fs.view.setNode n .free).addRef n (-1))
          ({iblock fs.sb n} ∪ bitmap fs.sb)
        else Post fs fs' (fs.view.addRef n (-1)) ∅) E := by
  simp only [iput, wp_bind, wp_getInode]
  by_cases hcond : fs.view.ref n = 1 ∧ (fs.view.node n).attr.type ≠ 0 ∧
      (fs.view.node n).attr.nlink = 0
  · obtain ⟨hone, htype, hnlink⟩ := hcond
    have halloc := allocated_of_type htype
    rw [node_of_allocated halloc] at hnlink
    obtain ⟨-, hvalid⟩ := h.orphan n halloc hnlink
    obtain ⟨-, hdin⟩ := h.coherent n href hvalid
    have hfree : (fs.icache n).locked = false := by
      by_contra hl
      have hmore := hlocked (Bool.eq_true_of_not_eq_false hl)
      omega
    have hzero : (fs.icache n).din.nlink = 0 := by
      rw [hdin]
      exact hnlink
    rw [node_of_allocated halloc] at htype ⊢
    rw [if_pos ⟨hone, hvalid, hzero⟩, wp_bind]
    refine (wp_ifree h hop hone hvalid hfree).imp ?_
    intro _ fs₁ hpost
    refine (wp_dropRef hpost.ok ?_ ?_ ?_).imp ?_
    · rw [hpost.view]
      exact href
    · intro hl
      rw [hpost.view] at hl
      change (fs.icache n).locked = true at hl
      rw [hfree] at hl
      cases hl
    · intro hne
      rw [hpost.view] at hne
      simp [View.setNode, Node.free] at hne
    · intro _ fs₂ hpost₂
      rw [if_pos ⟨hone, htype, hnlink⟩]
      have hall := hpost.trans hpost₂
      rw [hpost.view, Set.union_empty] at hall
      exact hall
  · have hnot : ¬((fs.icache n).ref = 1 ∧ (fs.icache n).valid = true ∧
        (fs.icache n).din.nlink = 0) := by
      rintro ⟨hone, hvalid, hzero⟩
      obtain ⟨halloc, hdin⟩ := h.coherent n href hvalid
      apply hcond
      rw [node_of_allocated halloc]
      exact ⟨hone, halloc.2.2, by rw [← hdin]; exact hzero⟩
    rw [if_neg hnot]
    refine (wp_dropRef h href hlocked ?_).imp ?_
    · intro htype hnlink
      by_contra hle
      exact hcond ⟨by omega, htype, hnlink⟩
    · intro _ fs₁ hpost
      rw [if_neg hcond]
      exact hpost

/-! ## `ialloc` -/

/-- An empty file with one link. -/
def newNode (type major minor : Nat) : Node :=
  ⟨⟨type, major, minor, 1, 0⟩, fun _ => 0⟩

/-- `ialloc` finds a free inode. -/
theorem find_free (hfind : (List.range' 1 (fs.sb.ninodes - 1)).find?
      (fun n => (fs.dinode n).type = 0) = some n) :
    0 < n ∧ n < fs.sb.ninodes ∧ (fs.view.node n).attr.type = 0 := by
  obtain ⟨hn, hle⟩ := List.mem_range'_1.mp (List.mem_of_find?_eq_some hfind)
  have hlt : n < fs.sb.ninodes := by omega
  rw [nodeOf_type hn hlt]
  exact ⟨hn, hlt, by simpa using List.find?_some hfind⟩

/-- The disk inode that `ialloc` writes. -/
def fresh (type : Nat) : Dinode := ⟨type, 0, 0, 0, 0, fun _ => 0⟩

/-- A new inode fits in its place on the disk. -/
theorem fits_fresh {type : Nat} (htype : type < 2 ^ 16) : (fresh type).Fits where
  type := htype
  major := Nat.two_pow_pos 16
  minor := Nat.two_pow_pos 16
  nlink := Nat.two_pow_pos 16
  size := Nat.two_pow_pos 32
  addr := fun _ => Nat.two_pow_pos 32
  outside := fun _ _ => rfl

/-- A free inode is neither locked nor valid. -/
theorem Ok.unlocked_of_free (h : Ok fs) (hzero : (fs.view.node n).attr.type = 0) :
    (fs.icache n).locked = false ∧ (0 < (fs.icache n).ref → (fs.icache n).valid = false) := by
  have hvalid : 0 < (fs.icache n).ref → (fs.icache n).valid = false := by
    intro href
    by_contra hv
    have halloc := (h.coherent n href (Bool.eq_true_of_not_eq_false hv)).1
    rw [node_of_allocated halloc] at hzero
    exact halloc.2.2 hzero
  refine ⟨?_, hvalid⟩
  by_contra hl
  obtain ⟨href, hv⟩ := h.held n (Bool.eq_true_of_not_eq_false hl)
  rw [hvalid href] at hv
  cases hv

/-- A free inode has been marked allocated, referenced and locked. -/
theorem Ok.post_fresh {type : Nat} (h : Ok fs) (active : Nat)
    (hactive : active + inUse (fs.icache n) = fs.active + 1) (hn : 0 < n) (hlt : n < fs.sb.ninodes)
    (hzero : (fs.view.node n).attr.type = 0) (htype : type ≠ 0) (htype' : type < 2 ^ 16) :
    Post fs (stored fs n (fresh type) fs.disk ⟨(fs.icache n).ref + 1, true, true, fresh type⟩ active
        (fs.logged ++ [iblock fs.sb n]))
      (((fs.view.setNode n ⟨⟨type, 0, 0, 0, 0⟩, fun _ => 0⟩).addRef n 1).setLocked n true)
      {iblock fs.sb n} := by
  have hself : update (dinodes fs.sb fs.disk) n (dinodes fs.sb fs.disk n) =
      dinodes fs.sb fs.disk := update_eq_self _ _
  have hfree : (dinodes fs.sb fs.disk n).type = 0 := by
    rw [dinodes, if_pos hlt]
    exact (nodeOf_type hn hlt).symm.trans hzero
  have hcore : Core fs.sb fs.disk (update (dinodes fs.sb fs.disk) n (fresh type)) := by
    have hstart : Core fs.sb fs.disk
        (update (dinodes fs.sb fs.disk) n (dinodes fs.sb fs.disk n)) := by
      rw [hself]
      exact h.core
    exact hstart.setType (fits_fresh htype') (Or.inl hfree) rfl rfl
  have href : 0 < (fs.icache n).ref + 1 := by
    have hnonneg := h.ref_nonneg n
    omega
  have hpost := h.post_stored (X := {iblock fs.sb n}) (L := fs.logged ++ [iblock fs.sb n]) hn hlt
    hcore .refl ⟨(fs.icache n).ref + 1, true, true, fresh type⟩ active href.le
    (by rw [hactive, inUse, if_pos href]) (fun _ _ => ⟨htype, rfl⟩) (fun _ => ⟨href, rfl⟩)
    (fun _ _ => ⟨href, rfl⟩) (fun c hc => by simpa using hc)
  have hnode : nodeIf fs.disk (fresh type) = ⟨⟨type, 0, 0, 0, 0⟩, fun _ => 0⟩ := by
    rw [nodeIf, if_neg (by exact htype)]
    refine Node.ext rfl (funext fun i => ?_)
    simp [Dinode.node, fresh]
  rw [hnode] at hpost
  exact hpost

/-- The state after `ialloc` has taken inode `n`, whose entry of the cache is `ip`. -/
def allocated (fs : Fs) (n type : Nat) (ip : Inode) (active : Nat) : Fs :=
  { fs with
    disk := putDisk fs.sb fs.disk n (fresh type)
    icache := update fs.icache n ip
    active := active
    logged := fs.logged ++ [iblock fs.sb n] }

/-- Locking the new inode reads it from its block, and then it gets its link. -/
theorem wp_initInode {type major minor : Nat} (h : Ok fs) (hop : 0 < fs.outstanding) (hn : 0 < n)
    (hlt : n < fs.sb.ninodes) (hzero : (fs.view.node n).attr.type = 0) (htype : type ≠ 0)
    (htype' : type < 2 ^ 16) (hmajor : major < 2 ^ 16) (hminor : minor < 2 ^ 16) (ip : Inode)
    (active : Nat) (hactive : active + inUse (fs.icache n) = fs.active + 1)
    (href : ip.ref = (fs.icache n).ref + 1) (hlocked : ip.locked = false)
    (hvalid : ip.valid = false) :
    Wp (ilock n) (allocated fs n type ip active) (fun _ fs₁ =>
      Wp (setAttr n major minor 1) fs₁ (fun _ fs' => Post fs fs'
        (((fs.view.setNode n (newNode type major minor)).addRef n 1).setLocked n true)
        {iblock fs.sb n}) E) E := by
  have hone : ¬ip.ref < 1 := by
    have hnonneg := h.ref_nonneg n
    omega
  have hread : getDinode (putDisk fs.sb fs.disk n (fresh type) (iblock fs.sb n)) (n % ipb) =
      fresh type := by
    rw [putDisk, update_self, getDinode_putDinode_same (fits_fresh htype')]
  simp only [ilock, allocated, wp_bind, wp_get, update_self, if_neg hone, hlocked, hvalid,
    dinode, hread, Bool.false_eq_true, if_false, wp_setInode, update_idem]
  rw [if_neg (by exact htype), wp_pure, href]
  have hfresh := h.post_fresh active hactive hn hlt hzero htype htype'
  refine (wp_setAttr hfresh.ok hop (by rw [hfresh.view]; simp [View.setLocked]) hmajor hminor
    (by decide)).imp ?_
  intro _ fs' hpost
  have hall := hfresh.trans hpost
  rw [hfresh.view] at hall
  have hnew : (((fs.view.setNode n ⟨⟨type, 0, 0, 0, 0⟩, fun _ => 0⟩).addRef n 1).setLocked n
      true).setNode n (((((fs.view.setNode n ⟨⟨type, 0, 0, 0, 0⟩, fun _ => 0⟩).addRef n 1).setLocked
        n true).node n).setFields major minor 1) =
      ((fs.view.setNode n (newNode type major minor)).addRef n 1).setLocked n true := by
    refine View.ext ?_ rfl rfl
    simp [View.setNode, View.addRef, View.setLocked, Node.setFields, newNode]
  rw [hnew] at hall
  exact hall.weaken (by rw [Set.union_subset_iff]; exact ⟨subset_rfl, subset_rfl⟩)

/-- The new inode of `create`. -/
theorem wp_newInode {type major minor : Nat} (h : Ok fs) (hop : 0 < fs.outstanding)
    (htype : type ≠ 0) (htype' : type < 2 ^ 16) (hmajor : major < 2 ^ 16)
    (hminor : minor < 2 ^ 16) :
    Wp (Calls.newInode type major minor) fs
      (fun n fs' => 0 < n ∧ n < fs.sb.ninodes ∧ (fs.view.node n).attr.type = 0 ∧
        Post fs fs' (((fs.view.setNode n (newNode type major minor)).addRef n 1).setLocked n true)
          {iblock fs.sb n})
      (fun e _ => e = "iget: no inodes" ∨ e = "ialloc: no inodes") := by
  simp only [Calls.newInode, InodeLayer.ialloc, ialloc, wp_bind, wp_get]
  split
  · exact wp_throw.mpr (Or.inr rfl)
  next n hfind =>
    obtain ⟨hn, hlt, hzero⟩ := find_free hfind
    obtain ⟨hunlocked, hinvalid⟩ := h.unlocked_of_free hzero
    have hnonneg := h.ref_nonneg n
    simp only [wp_bind]
    rw [wp_putInode hop]
    simp only [iget, wp_bind, wp_get]
    split
    next href =>
      rw [wp_setInode, wp_pure]
      refine (wp_initInode h hop hn hlt hzero htype htype' hmajor hminor
        { fs.icache n with ref := (fs.icache n).ref + 1 } fs.active
        (by rw [inUse, if_pos href]) rfl hunlocked (hinvalid href)).imp ?_
      exact fun _ _ hset => hset.imp fun _ fs' hpost => wp_pure.mpr ⟨hn, hlt, hzero, hpost⟩
    next href =>
      split
      · exact wp_throw.mpr (Or.inl rfl)
      · simp only [wp_bind, wp_setInode, wp_modify]
        rw [wp_pure]
        refine (wp_initInode h hop hn hlt hzero htype htype' hmajor hminor
          { fs.icache n with ref := 1, valid := false } (fs.active + 1)
          (by rw [inUse, if_neg href]) (by change 1 = (fs.icache n).ref + 1; omega) hunlocked
          rfl).imp ?_
        exact fun _ _ hset => hset.imp
          fun _ fs' hpost => wp_pure.mpr ⟨hn, hlt, hzero, hpost⟩

end Ops

end Fs

end Xv6
