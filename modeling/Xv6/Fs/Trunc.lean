import Mathlib.Tactic
import Xv6.Fs.Bmap

/-!
# Truncation

The loops of `itrunc` give back the blocks of an inode one by one.  In between the
references on disk still name blocks that are free already, so the books are kept
for the slots that are left.

Main results:

- Theorem {lit}`Cut.release`: one more block is given back.
- Theorem {lit}`wp_truncBlocks`: afterwards the inode is empty and the books are exact.
-/

namespace Xv6

open Lib Function

namespace Fs

/-! ## `itrunc` -/

/-- From `disk` to `disk'` the blocks in the slots `S` of inode `n` have been given
back, and only the bitmap has changed. -/
structure Cut (sb : Superblock) (D : Nat → Dinode) (n : Nat) (S : Set Nat) (d : Dinode)
    (disk : Nat → Block) (L : List Nat) (disk' : Nat → Block) (L' : List Nat) : Prop where
  exact : ∃ A : Nat × Nat → Option Nat, Exact (used sb disk') (metadata sb) A ∧
    (∀ s ∈ S, A (n, s) = none) ∧
    ∀ m s, (m ≠ n ∨ s ∉ S) → A (m, s) = owner sb disk (update D n d) (m, s)
  same : ∀ c, c ∉ bitmap sb → disk' c = disk c
  logs : ∀ c ∈ L', c ∈ L ∨ c ∈ bitmap sb

namespace Cut

variable {sb : Superblock} {D : Nat → Dinode} {n s : Nat} {S : Set Nat} {d : Dinode}
variable {disk disk' : Nat → Block} {L L' : List Nat}

/-- Nothing to free. -/
theorem nil (h : Core sb disk (update D n d)) : Cut sb D n ∅ d disk L disk L where
  exact := ⟨_, h.exact, fun _ => False.elim, fun _ _ _ => rfl⟩
  same := fun _ _ => rfl
  logs := fun _ hc => Or.inl hc

/-- A slot without a block counts as given back. -/
theorem skip (h : Cut sb D n S d disk L disk' L') (hzero : slotAddr disk d s = 0) :
    Cut sb D n (insert s S) d disk L disk' L' where
  exact := by
    obtain ⟨A, hexact, hcut, hrest⟩ := h.exact
    refine ⟨A, hexact, ?_, fun m t hmt => hrest m t (hmt.imp id fun h hin => h (Or.inr hin))⟩
    rintro t (rfl | ht)
    · by_cases hin : t ∈ S
      · exact hcut t hin
      · rw [hrest n t (Or.inr hin)]
        exact owner_eq_none (by simp [hzero])
    · exact hcut t ht
  same := h.same
  logs := h.logs

/-- A block that has not been given back yet is in use. -/
theorem mem_used (h : Cut sb D n S d disk L disk' L')
    (hn : Allocated sb (update D n d) n) (hs : s ∉ S) (hne : slotAddr disk d s ≠ 0) :
    slotAddr disk d s ∈ used sb disk' := by
  obtain ⟨A, hexact, -, hrest⟩ := h.exact
  exact hexact.mem_used ((hrest n s (Or.inr hs)).trans (owner_self hn hne))

/-- The block in one more slot is given back. -/
theorem release (h : Cut sb D n S d disk L disk' L')
    (hn : Allocated sb (update D n d) n) (hs : s ∉ S) (hne : slotAddr disk d s ≠ 0) :
    Cut sb D n (insert s S) d disk L (freeDisk sb disk' (slotAddr disk d s))
      (L' ++ [bblock sb (slotAddr disk d s)]) := by
  have hused := h.mem_used hn hs hne
  refine ⟨?_, ?_, ?_⟩
  · obtain ⟨A, hexact, hcut, hrest⟩ := h.exact
    refine ⟨update A (n, s) none, ?_, ?_, ?_⟩
    · rw [used_freeDisk]
      exact hexact.release ((hrest n s (Or.inr hs)).trans (owner_self hn hne))
    · rintro t (rfl | ht)
      · exact update_self _ _ _
      · rw [update_of_ne (by rintro ⟨⟩; exact hs ht)]
        exact hcut t ht
    · intro m t hmt
      rw [update_of_ne]
      · exact hrest m t (hmt.imp id fun h hin => h (Or.inr hin))
      · rintro ⟨⟩
        exact hmt.elim (fun h => h rfl) fun h => h (Or.inl rfl)
  · intro c hc
    rw [freeDisk_of_ne, h.same c hc]
    rintro rfl
    exact hc ⟨_, hused.1, rfl⟩
  · intro c hc
    rcases List.mem_append.mp hc with hc | hc
    · exact h.logs c hc
    · exact Or.inr ⟨_, hused.1, List.mem_singleton.mp hc⟩

/-- A slot is dealt with, whether or not there is a block in it. -/
theorem next {a : Nat} {T : Set Nat} (h : Cut sb D n S d disk L disk' L')
    (hn : Allocated sb (update D n d) n) (ha : slotAddr disk d s = a) (hs : s ∉ S)
    (hS : ∀ t, t ∈ T ↔ t = s ∨ t ∈ S) :
    (a = 0 → Cut sb D n T d disk L disk' L') ∧ (a ≠ 0 → a ∈ used sb disk' ∧
      Cut sb D n T d disk L (freeDisk sb disk' a) (L' ++ [bblock sb a])) := by
  obtain rfl : T = insert s S := Set.ext hS
  subst ha
  exact ⟨h.skip, fun hne => ⟨h.mem_used hn hs hne, h.release hn hs hne⟩⟩

end Cut

section Trunc

variable {fs : Fs} {D : Nat → Dinode} {n : Nat} {d : Dinode} {disk : Nat → Block} {L : List Nat}
variable {E : String → Fs → Prop}

/-- The copy of an inode whose first `i` addresses have been cleared. -/
def cleared (d : Dinode) (i : Nat) : Dinode :=
  { d with addrs := fun j => if j < i then 0 else d.addrs j }

/-- One more address. -/
theorem cleared_succ {i : Nat} : (cleared d i).withAddr i 0 = cleared d (i + 1) := by
  unfold cleared Dinode.withAddr
  congr 1
  funext j
  by_cases hj : j = i
  · simp [hj]
  · have hiff : j < i + 1 ↔ j < i := by omega
    simp only [update_of_ne hj, hiff]

/-- The next address. -/
theorem cleared_addr {i : Nat} : (cleared d i).addrs i = d.addrs i := by
  simp [cleared]

/-- An address that is zero. -/
theorem cleared_of_zero {i : Nat} (hzero : d.addrs i = 0) : cleared d (i + 1) = cleared d i := by
  unfold cleared
  congr 1
  funext j
  by_cases hj : j = i
  · simp [hj, hzero]
  · have hiff : j < i + 1 ↔ j < i := by omega
    simp only [hiff]

/-- One round of the loop over the direct blocks. -/
theorem wp_truncDirect (hop : 0 < fs.outstanding)
    (hn : Allocated fs.sb (update D n d) n) {i : Nat} (hi : i < ndirect)
    {disk' : Nat → Block} {L' : List Nat}
    (hcut : Cut fs.sb D n {s | s < i} d disk L disk' L') :
    Wp (truncDirect n i) (during fs n (cleared d i) disk' L')
      (fun _ fs' => ∃ disk'' L'', fs' = during fs n (cleared d (i + 1)) disk'' L'' ∧
        Cut fs.sb D n {s | s < i + 1} d disk L disk'' L'') E := by
  obtain ⟨hskip, hfree⟩ := hcut.next (T := {s | s < i + 1}) hn (slotAddr_direct hi.le)
    (lt_irrefl i) fun s => by simp only [Set.mem_ofPred_eq]; omega
  simp only [truncDirect, wp_bind, wp_getInode, during_icache, cleared_addr]
  split
  next hne =>
    obtain ⟨hused, hrel⟩ := hfree hne
    rw [wp_bind, wp_bfree (by exact hop) (by exact hused), wp_setAddr]
    refine ⟨_, _, ?_, hrel⟩
    rw [← cleared_succ]
    simp [during, Dinode.withAddr]
  next hzero =>
    rw [not_not] at hzero
    refine wp_pure.mpr ⟨disk', L', ?_, hskip hzero⟩
    rw [cleared_of_zero hzero]

/-- One round of the loop over the entries of the indirect block. -/
theorem wp_truncEntry (hop : 0 < fs.outstanding)
    (hn : Allocated fs.sb (update D n d) n) {j : Nat} (hj : j < nindirect)
    (hind : d.addrs ndirect ≠ 0) {d₁ : Dinode} {disk' : Nat → Block} {L' : List Nat}
    (hcut : Cut fs.sb D n {s | s < ndirect ∨ ndirect < s ∧ s < ndirect + 1 + j} d disk L disk' L') :
    Wp (truncEntry (disk (d.addrs ndirect)) j) (during fs n d₁ disk' L')
      (fun _ fs' => ∃ disk'' L'', fs' = during fs n d₁ disk'' L'' ∧
        Cut fs.sb D n {s | s < ndirect ∨ ndirect < s ∧ s < ndirect + 1 + (j + 1)} d disk L
          disk'' L'') E := by
  obtain ⟨hskip, hfree⟩ := hcut.next
    (T := {s | s < ndirect ∨ ndirect < s ∧ s < ndirect + 1 + (j + 1)}) hn (slotAddr_entry hj hind)
    (by simp only [Set.mem_ofPred_eq]; omega) fun s => by simp only [Set.mem_ofPred_eq]; omega
  unfold truncEntry
  split
  next hne =>
    obtain ⟨hused, hrel⟩ := hfree hne
    rw [wp_bfree (by exact hop) (by exact hused)]
    exact ⟨_, _, rfl, hrel⟩
  next hzero =>
    exact wp_pure.mpr ⟨disk', L', rfl, hskip (not_not.mp hzero)⟩

/-- The blocks behind the indirect block, and that block itself. -/
theorem wp_truncIndirect (hop : 0 < fs.outstanding)
    (h : Core fs.sb disk (update D n d))
    (hn : Allocated fs.sb (update D n d) n) {disk' : Nat → Block} {L' : List Nat}
    (hcut : Cut fs.sb D n {s | s < ndirect} d disk L disk' L') :
    Wp (truncIndirect n) (during fs n (cleared d ndirect) disk' L')
      (fun _ fs' => ∃ disk'' L'', fs' = during fs n (cleared d (ndirect + 1)) disk'' L'' ∧
        ∃ S, Cut fs.sb D n S d disk L disk'' L'' ∧ ∀ s, s ∉ S → slotAddr disk d s = 0) E := by
  simp only [truncIndirect, wp_bind, wp_getInode, during_icache, cleared_addr]
  split
  next hind =>
    have hdata := (h.owner_data (owner_self_indirect disk hn hind)).1
    have hblock : disk' (d.addrs ndirect) = disk (d.addrs ndirect) := by
      apply hcut.same
      rintro ⟨b, hb, heq⟩
      have hlt := bblock_lt_nmeta hb
      omega
    have hset : {s | s < ndirect} = {s | s < ndirect ∨ ndirect < s ∧ s < ndirect + 1 + 0} := by
      ext s
      simp only [Set.mem_ofPred_eq]
      omega
    rw [hset] at hcut
    simp only [wp_bind, wp_bread, during_disk, hblock]
    refine (wp_forUpto (fun j fs' => ∃ disk'' L'',
      fs' = during fs n (cleared d ndirect) disk'' L'' ∧
      Cut fs.sb D n {s | s < ndirect ∨ ndirect < s ∧ s < ndirect + 1 + j} d disk L disk'' L'')
      ⟨disk', L', rfl, hcut⟩ ?_).imp ?_
    · rintro j hj _ ⟨disk'', L'', rfl, hcut'⟩
      exact wp_truncEntry hop hn hj hind hcut'
    · rintro _ _ ⟨disk'', L'', rfl, hcut'⟩
      obtain ⟨hused, hrel⟩ := (hcut'.next (T := {s | s < nslots}) hn (slotAddr_direct le_rfl)
        (by simp only [Set.mem_ofPred_eq]; omega) fun s => by
          simp only [Set.mem_ofPred_eq, nslots]
          omega).2 hind
      rw [wp_bfree (by exact hop) (by exact hused), wp_setAddr]
      refine ⟨_, _, ?_, _, hrel, fun s hs => slotAddr_of_ge (Nat.le_of_not_lt hs)⟩
      rw [← cleared_succ]
      simp [during, Dinode.withAddr]
  next hzero =>
    rw [not_not] at hzero
    refine wp_pure.mpr ⟨disk', L', ?_, _, hcut, ?_⟩
    · rw [cleared_of_zero hzero]
    · intro s hs
      rcases (Nat.le_of_not_lt hs).lt_or_eq with hlt | rfl
      · exact slotAddr_of_no_indirect hlt hzero
      · rw [slotAddr_direct le_rfl, hzero]

/-- The copy of an inode after `itrunc`. -/
def emptied (d : Dinode) : Dinode :=
  { d with size := 0, addrs := fun _ => 0 }

/-- All addresses are cleared. -/
theorem emptied_eq (hd : d.Fits) : { cleared d (ndirect + 1) with size := 0 } = emptied d := by
  refine Dinode.ext rfl rfl rfl rfl rfl (funext fun j => ?_)
  change (if j < ndirect + 1 then 0 else d.addrs j) = 0
  split
  · rfl
  · exact hd.outside j (by omega)

/-- Freeing blocks leaves other inodes alone. -/
theorem Cut.apart {S : Set Nat} {disk' : Nat → Block} {L' : List Nat}
    (h : Core fs.sb disk (update D n d))
    (hcut : Cut fs.sb D n S d disk L disk' L') : Apart fs.sb D n disk disk' := by
  constructor
  · intro c hc
    apply hcut.same
    rintro ⟨b, -, rfl⟩
    exact absurd hc (Nat.not_lt.mpr bmapstart_le_bblock)
  · intro m s c hm hown
    rw [← owner_update_of_ne (d := d) hm] at hown
    apply hcut.same
    rintro ⟨b, hb, rfl⟩
    exact absurd (h.owner_data hown).1 (Nat.not_le.mpr (bblock_lt_nmeta hb))

/-- Without its blocks the inode is empty, and the books are exact. -/
theorem Cut.core {S : Set Nat} {disk' : Nat → Block} {L' : List Nat}
    (h : Core fs.sb disk (update D n d))
    (hcut : Cut fs.sb D n S d disk L disk' L') (hall : ∀ s, s ∉ S → slotAddr disk d s = 0) :
    Core fs.sb disk' (update D n (emptied d)) := by
  have hapart := Cut.apart h hcut
  have hzero : ∀ s, slotAddr disk' (emptied d) s = 0 := by
    intro s
    by_cases hs : s ≤ ndirect
    · rw [slotAddr_direct hs]
      rfl
    · exact slotAddr_of_no_indirect (by omega) rfl
  have hd := h.fits_self
  refine h.replace hapart ⟨hd.type, hd.major, hd.minor, hd.nlink, by simp [emptied],
    by simp [emptied], by simp [emptied]⟩ ?_ (fun _ => Nat.zero_le _) fun _ bn hlt =>
      absurd hlt (Nat.not_lt_zero _)
  obtain ⟨A, hexact, hnone, hrest⟩ := hcut.exact
  have hA : A = owner fs.sb disk' (update D n (emptied d)) := by
    funext ⟨m, s⟩
    by_cases hm : m = n
    · have hnew : owner fs.sb disk' (update D n (emptied d)) (n, s) = none :=
        owner_eq_none (by simp [hzero])
      rw [hm, hnew]
      by_cases hs : s ∈ S
      · exact hnone s hs
      · rw [hrest n s (Or.inr hs)]
        exact owner_eq_none (by simp [hall s hs])
    · rw [hrest m s (Or.inl hm), owner_update_of_ne hm, owner_update_of_ne hm, hapart.owner hm]
  rwa [← hA]

/-- The loops of `itrunc`. -/
theorem wp_truncBlocks (hop : 0 < fs.outstanding)
    (h : Core fs.sb disk (update D n d))
    (hn : Allocated fs.sb (update D n d) n) :
    Wp (truncBlocks n) (during fs n d disk L)
      (fun _ fs' => ∃ disk' L', fs' = during fs n (emptied d) disk' L' ∧
        Core fs.sb disk' (update D n (emptied d)) ∧ Apart fs.sb D n disk disk' ∧
        ∀ c ∈ L', c ∈ L ∨ c ∈ bitmap fs.sb) E := by
  have hstart : during fs n d disk L = during fs n (cleared d 0) disk L := by
    simp [cleared]
  have hnil : Cut fs.sb D n {s | s < 0} d disk L disk L := by
    simpa using Cut.nil h
  rw [truncBlocks, wp_bind, hstart]
  refine (wp_forUpto (fun i fs' => ∃ disk' L', fs' = during fs n (cleared d i) disk' L' ∧
    Cut fs.sb D n {s | s < i} d disk L disk' L') ⟨disk, L, rfl, hnil⟩ ?_).imp ?_
  · rintro i hi _ ⟨disk', L', rfl, hcut⟩
    exact wp_truncDirect hop hn hi hcut
  · rintro _ _ ⟨disk₁, L₁, rfl, hcut₁⟩
    rw [wp_bind]
    refine (wp_truncIndirect hop h hn hcut₁).imp ?_
    rintro _ _ ⟨disk', L', rfl, S, hcut, hall⟩
    rw [wp_modifyDinode]
    refine ⟨disk', L', ?_, Cut.core h hcut hall, Cut.apart h hcut, hcut.logs⟩
    rw [← emptied_eq h.fits_self]
    simp [during]

end Trunc

end Fs

end Xv6
