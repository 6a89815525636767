import Mathlib.Tactic
import Xv6.Fs.Syscall
import Xv6.Fs.Tree

/-!
# Opening and using files

What the calls that leave the tree alone, or add one file to it, do to the files, the
references and the locks, and which blocks they log.

Main results:

- Theorems {lit}`wp_sysOpen` and {lit}`wp_sysChdir`.
- Theorems {lit}`wp_dropInode`, {lit}`wp_fileread`, {lit}`wp_writeChunk` and {lit}`wp_filestat`.
-/

namespace Xv6

open Lib

namespace Fs

open Calls

/-! ## `open` -/

/-- The view after `open` has taken a reference on `ip` and perhaps truncated it. -/
def openedView (v : View) (ip omode : Nat) : View :=
  if omode &&& oTrunc ≠ 0 ∧ (v.node ip).attr.type = tFile then
    (v.addRef ip 1).setNode ip (v.node ip).empty
  else v.addRef ip 1

section Open

variable {fs₀ fs : Fs} {v : View} {cwd ip omode : Nat} {I : Finset Nat} {c : Nat} {path : Name}
  {E : String → Fs → Prop}

/-- The failing end of `sys_open`. -/
theorem wp_openFail {α : Type} (h : At fs₀ I c ((v.addRef ip 1).setLocked ip true) fs)
    (hidle : v.Idle ip) :
    Wp (openFail (α := α) ip) fs (fun r fs' => r = none ∧ Done I c fs₀ fs' v) E := by
  simp only [openFail, wp_bind]
  refine (h.iunlockput hidle).imp ?_
  exact fun _ fs₁ h₁ => h₁.ret fun fs' hdone => ⟨rfl, hdone⟩

/-- The second half of `open`, from the view `v` on. -/
theorem wp_openRest {room : Bool} (h : At fs₀ I c ((v.addRef ip 1).setLocked ip true) fs)
    (hidle : v.Idle ip) :
    Wp (openRest ip omode room) fs
      (fun r fs' =>
        (r = none ∧ (room = false ∨ (v.node ip).attr.type = tDevice) ∧ Done I c fs₀ fs' v) ∨
        (r = some (ip, opened omode ((v.node ip).attr.type = tDevice)) ∧
          Done (insert ip I) c fs₀ fs' (openedView v ip omode))) E := by
  have hlocked : ((v.addRef ip 1).setLocked ip true).Locked ip (v.node ip) :=
    View.locked_self _ _
  simp only [openRest, wp_bind]
  refine (h.attr hlocked).mpr ?_
  split
  next hdev =>
    refine (wp_openFail h hidle).imp ?_
    exact fun _ fs' hbad => Or.inl ⟨hbad.1, Or.inr hdev.1, hbad.2⟩
  · split
    next hroom =>
      refine (wp_openFail h hidle).imp ?_
      exact fun _ fs' hbad => Or.inl ⟨hbad.1, Or.inl hroom, hbad.2⟩
    · have h := h.mono (Finset.subset_insert ip I) le_rfl
      unfold openedView
      split
      · simp only [wp_bind]
        refine (wp_itrunc h.ok h.op (by rw [h.view]; exact hlocked.1)).imp ?_
        rintro _ fs₁ ⟨-, -, hpost⟩
        have h₁ := h.logged (Y := ∅) (Finset.mem_insert_self ip I) le_rfl (hpost.weaken (by simp))
        rw [h.view] at h₁
        have h₁ : At fs₀ (insert ip I) c
          (((v.addRef ip 1).setNode ip (v.node ip).empty).setLocked ip true) fs₁ := h₁
        refine (h₁.iunlock hidle.unlocked).imp ?_
        exact fun _ fs₂ h₂ => h₂.ret fun fs' hdone => Or.inr ⟨rfl, hdone⟩
      · simp only [wp_bind]
        refine (h.iunlock hidle.unlocked).imp ?_
        exact fun _ fs₁ h₁ => h₁.ret fun fs' hdone => Or.inr ⟨rfl, hdone⟩

/-- The view after a file has been made. -/
abbrev freshView (v : View) (dp ip : Nat) (name : Name) : View :=
  (made v dp ip name tFile 0 0).settle dp

/-- `open`: nothing has happened, or a file is open, or it has been made and perhaps could not
be opened. -/
theorem wp_sysOpen {room : Bool} (h : Ok fs) (hready : Ready fs.sb.ninodes fs.view cwd) :
    Wp (sysOpen cwd path omode room) fs
      (fun r fs' =>
        (r = none ∧ Done ∅ 0 fs fs' fs.view) ∨
        (∃ ip, r = some (ip, opened omode ((fs.view.node ip).attr.type = tDevice)) ∧
          0 < ip ∧ ip < fs.sb.ninodes ∧ (fs.view.node ip).attr.type ≠ 0 ∧
          ((fs.view.node ip).attr.type = tDir → omode = 0) ∧
          Done {ip} 0 fs fs' (openedView fs.view ip omode)) ∨
        (omode &&& oCreate ≠ 0 ∧
          ∃ dp ip name, Fresh fs.view.node fs.sb.ninodes cwd path dp ip name ∧
          ((r = none ∧ room = false ∧ Done {dp, ip} 6 fs fs' (freshView fs.view dp ip name)) ∨
            (r = some (ip, opened omode false) ∧
              Done {dp, ip} 6 fs fs' (openedView (freshView fs.view dp ip name) ip omode)))))
      (fun e _ => TreePanic fs.view.node cwd e) := by
  refine wp_begin h fun fs₁ h₁ => ?_
  simp only [wp_bind]
  refine (wp_openInode h₁ hready).imp ?_
  rintro r fs₂ (⟨rfl, h₂⟩ | ⟨ip, rfl, hpos, hlt, htype, hdir, h₂⟩ |
    ⟨hcreate, dp, ip, name, rfl, hfresh, h₂⟩)
  · simp only [wp_bind]
    exact h₂.ret fun fs' hdone => Or.inl ⟨rfl, hdone⟩
  · refine (wp_openRest h₂ (h₁.idle (hready.unlocked ip))).imp ?_
    rintro r fs' (⟨hr, -, hdone⟩ | ⟨hr, hdone⟩)
    · exact Or.inl ⟨hr, hdone⟩
    · exact Or.inr (Or.inl ⟨ip, hr, hpos, hlt, htype, hdir, hdone⟩)
  · -- A new file is not a device.
    have hfile : ((freshView fs.view dp ip name).node ip).attr.type ≠ tDevice := by
      rw [View.node_settle_of_ne hfresh.ne, node_made, if_neg (by decide)]
      exact (by decide : tFile ≠ tDevice)
    refine (wp_openRest h₂ (hfresh.idle (h₁.idle (hready.unlocked ip)))).imp ?_
    rintro r fs' (⟨hr, hwhy, hdone⟩ | ⟨hr, hdone⟩)
    · exact Or.inr (Or.inr ⟨hcreate, dp, ip, name, hfresh,
        Or.inl ⟨hr, hwhy.resolve_right hfile, hdone⟩⟩)
    · rw [decide_eq_false hfile] at hr
      rw [Finset.insert_eq_of_mem (by simp)] at hdone
      exact Or.inr (Or.inr ⟨hcreate, dp, ip, name, hfresh, Or.inr ⟨hr, hdone⟩⟩)

end Open

/-! ## `chdir` and `close` -/

/-- Giving up a reference and taking it. -/
theorem addRef_cancel (v : View) (n : Nat) : (v.addRef n (-1)).addRef n 1 = v := by
  refine View.ext rfl ?_ rfl
  simp [View.addRef]

/-- The view after a process has moved from directory `cwd` to `ip`. -/
def movedView (v : View) (cwd ip : Nat) : View :=
  ((v.addRef ip 1).addRef cwd (-1)).settle cwd

section Close

variable {fs : Fs} {cwd n : Nat} {path : Name} {E : String → Fs → Prop}

/-- `sys_chdir`. -/
theorem wp_sysChdir (h : Ok fs) (hready : Ready fs.sb.ninodes fs.view cwd) :
    Wp (sysChdir cwd path) fs
      (fun r fs' =>
        (r = none ∧ Done ∅ 0 fs fs' fs.view) ∨
        (∃ ip, r = some ip ∧ 0 < ip ∧ ip < fs.sb.ninodes ∧ (fs.view.node ip).attr.type = tDir ∧
          Done {cwd} 0 fs fs' (movedView fs.view cwd ip)))
      (fun e _ => TreePanic fs.view.node cwd e) := by
  have hidle : ∀ n, fs.view.Idle n := fun n => h.idle (hready.unlocked n)
  refine wp_begin h fun fs₁ h₁ => ?_
  simp only [wp_bind]
  refine (h₁.namei hready).mono ?_ fun _ _ he => he.tree
  rintro r fs₂ (⟨rfl, h₂⟩ | ⟨ip, rfl, hip, hip', hvisits, h₂⟩)
  · simp only [wp_bind]
    exact h₂.ret fun fs' hdone => Or.inl ⟨rfl, hdone⟩
  simp only [wp_bind]
  refine (h₂.ilock (hready.unlocked ip) (hidle ip).nonneg hip hip').mono ?_ ?_
  · rintro _ fs₃ ⟨-, h₃⟩
    refine (h₃.attr (View.locked_self _ _)).mpr ?_
    split
    · exact (wp_openFail h₃ (hidle ip)).imp fun _ _ => Or.inl
    next hdir =>
      simp only [wp_bind]
      refine (h₃.iunlock (hready.unlocked ip)).imp ?_
      intro _ fs₄ h₄
      have h₄ := (h₄.of_eq (addRef_cancel _ cwd).symm).mono (Finset.empty_subset {cwd}) le_rfl
      have hnonneg : 0 ≤ ((fs.view.addRef ip 1).addRef cwd (-1)).ref cwd := by
        have hheld : 0 < fs.view.ref cwd := hready.held
        rw [View.ref_addRef_self]
        by_cases hcwd : cwd = ip
        · rw [hcwd, View.ref_addRef_self, ← hcwd]
          omega
        · rw [View.ref_addRef_of_ne _ _ hcwd]
          omega
      refine (h₄.iput (Finset.mem_singleton_self cwd) (hready.unlocked _) hnonneg).imp ?_
      exact fun _ fs₅ h₅ => h₅.ret fun fs' hdone =>
        Or.inr ⟨ip, rfl, hip, hip', not_not.mp hdir, hdone⟩
  · rintro e _ ⟨rfl, hfree⟩
    exact .noType (start_eq _ path) hvisits hfree

/-- A transaction that drops a reference. -/
theorem wp_dropInode (h : Ok fs) (hunlocked : fs.view.locked n = false) (href : 0 < fs.view.ref n) :
    Wp (dropInode n) fs (fun _ fs' => Done {n} 0 fs fs' ((fs.view.addRef n (-1)).settle n)) E := by
  refine wp_begin h fun fs₁ h₁ => ?_
  have h₁ := (h₁.of_eq (addRef_cancel _ n).symm).mono (Finset.empty_subset {n}) le_rfl
  have hnonneg : 0 ≤ (fs.view.addRef n (-1)).ref n := by
    rw [View.ref_addRef_self]
    omega
  rw [wp_bind]
  refine (h₁.iput (Finset.mem_singleton_self n) hunlocked hnonneg).imp ?_
  intro _ fs₂ h₂
  have hret := h₂.ret (r := ()) (Q := fun _ fs' => Done {n} 0 fs fs' _) (E := E) fun _ => id
  exact hret.imp fun _ _ => wp_pure.mp

end Close

/-! ## `read`, `write` and `fstat` -/

section Files

variable {fs : Fs} {n : Nat} {E : String → Fs → Prop}

/-- Reading a locked inode changes nothing. -/
theorem wp_readi_same {ok : Nat → Bool} {off len : Nat} (h : Ok fs)
    (hlocked : fs.view.locked n = true) (hlen : len < 2 ^ 32) :
    Wp (readi n ok off len) fs (fun _ fs' => fs' = fs) E :=
  (wp_readi_view h hlocked hlen).imp fun _ _ hr => hr.1

/-- An inode that is referenced and not locked. -/
structure Usable (fs : Fs) (n : Nat) : Prop where
  ok : Ok fs
  pos : 0 < n
  lt : n < fs.sb.ninodes
  ref : 0 < fs.view.ref n
  unlocked : fs.view.locked n = false
  type : (fs.view.node n).attr.type ≠ 0

/-- Locking an inode that can be used. -/
theorem Usable.wp_ilock (h : Usable fs n) :
    Wp (ilock n) fs (fun _ fs' => fs'.view.locked n = true ∧
      Post fs fs' (fs.view.setLocked n true) ∅) E := by
  refine (Fs.wp_ilock h.ok h.pos h.lt h.ref).mono ?_ ?_
  · rintro _ fs' ⟨-, -, hpost⟩
    exact ⟨by rw [hpost.view, View.locked_setLocked_self], hpost⟩
  · rintro e _ (⟨-, hlocked⟩ | ⟨-, hfree⟩)
    · rw [h.unlocked] at hlocked
      cases hlocked
    · exact absurd hfree h.type

/-- `ilock` does not write. -/
theorem wp_ilock_disk : Wp (ilock n) fs (fun _ fs' => fs'.disk = fs.disk) fun _ _ => True := by
  simp only [ilock, wp_bind, wp_get]
  split
  · simp
  · split
    · simp
    · split
      · simp
      · rw [wp_bind, wp_setInode]
        split <;> simp

/-- `iunlock` does not write. -/
theorem wp_iunlock_disk : Wp (iunlock n) fs (fun _ fs' => fs'.disk = fs.disk) fun _ _ => True := by
  simp only [iunlock, wp_bind, wp_getInode]
  split <;> simp

/-- Reading logs nothing and leaves the disk alone. -/
theorem wp_fileread {f : File} {ok : Nat → Bool} {len : Nat} (h : Usable fs n)
    (hlen : len < 2 ^ 32) :
    Wp (fileread n f ok len) fs (fun r fs' => (∃ off, r.2 = { f with off := off }) ∧
      Post fs fs' fs.view ∅ ∧ fs'.disk = fs.disk) E := by
  simp only [fileread, wp_bind]
  refine (h.wp_ilock.and wp_ilock_disk).mono ?_ fun _ _ he => False.elim he.1
  rintro _ fs₁ ⟨⟨hlocked, hpost₁⟩, hdisk₁⟩
  refine (wp_readi_same hpost₁.ok hlocked hlen).imp ?_
  rintro r fs₂ rfl
  refine ((wp_iunlock_idle hpost₁.ok hpost₁.view h.unlocked).and wp_iunlock_disk).mono ?_
    fun _ _ he => False.elim he.1
  rintro _ fs₃ ⟨hpost₃, hdisk₃⟩
  exact wp_pure.mpr ⟨⟨_, rfl⟩, (hpost₁.trans hpost₃).weaken (by simp), hdisk₃.trans hdisk₁⟩

/-- `filestat` changes nothing. -/
theorem wp_filestat (h : Usable fs n) :
    Wp (filestat n) fs (fun _ fs' => Post fs fs' fs.view ∅) E := by
  simp only [filestat, wp_bind]
  refine h.wp_ilock.imp ?_
  rintro _ fs₁ ⟨hlocked, hpost₁⟩
  refine (wp_attr hpost₁.ok hlocked).mpr ?_
  refine (wp_iunlock_idle hpost₁.ok hpost₁.view h.unlocked).imp ?_
  intro _ fs₂ hpost₂
  exact wp_pure.mpr ((hpost₁.trans hpost₂).weaken (by simp))

/-- The slots of the blocks that a chunk touches, with that of the indirect block. -/
theorem card_slotsOf_chunk {off len : Nat} (hlen : len ≤ maxWrite) :
    (slotsOf (off / bsize) (blocks (off + len))).card ≤ 5 := by
  have hdata : ((Finset.Ico (off / bsize) (blocks (off + len))).image slotOf).card ≤ 4 := by
    refine Finset.card_image_le.trans ?_
    rw [Nat.card_Ico]
    unfold maxWrite maxopblocks at hlen
    unfold blocks bsize at *
    omega
  change _ ≤ 4 + 1
  refine (Finset.card_union_le _ _).trans (Nat.add_le_add hdata ?_)
  split
  · exact le_rfl
  · exact Nat.zero_le _

/-- One round of the loop of `filewrite`. -/
theorem wp_writeChunk {f : File} {src : Source} {len : Nat} (h : Usable fs n)
    (hlen : len ≤ maxWrite) :
    Wp (writeChunk n f src len) fs
      (fun r fs' => (r = (-1, f) ∧ Done ∅ 0 fs fs' fs.view) ∨
        (r.1 = len ∧ (∃ off, r.2 = { f with off := off }) ∧
          Done {n} 5 fs fs' (fs.view.setNode n ((fs.view.node n).write src f.off len))))
      (fun e _ => e = "balloc: out of blocks") := by
  have hshort : len < 2 ^ 32 := hlen.trans_lt (by decide)
  refine wp_begin h.ok fun fs₁ h₁ => ?_
  have husable : Usable fs₁ n := by
    obtain ⟨-, hpos, hlt, href, hunlocked, htype⟩ := h
    rw [← h₁.view] at href hunlocked htype
    exact ⟨h₁.ok, hpos, h₁.sb ▸ hlt, href, hunlocked, htype⟩
  simp only [wp_bind]
  refine husable.wp_ilock.imp ?_
  rintro _ fs₂ ⟨hlocked, hpost₂⟩
  have h₂ := h₁.same hpost₂
  rw [h₁.view] at h₂
  refine (wp_writei h₂.ok h₂.op hlocked hshort).mono ?_ fun e _ he => he.1
  rintro r fs₃ (⟨rfl, rfl, -⟩ | ⟨rfl, -, -, -, Y, hY, hpost₃⟩)
  · refine (h₂.iunlock h.unlocked).imp ?_
    exact fun _ fs₄ h₄ => h₄.ret fun fs' hdone => Or.inl ⟨rfl, hdone⟩
  · have h₃ := (h₂.mono (Finset.empty_subset {n}) le_rfl).logged (Finset.mem_singleton_self n)
      (hY.trans (card_slotsOf_chunk hlen)) hpost₃
    rw [h₂.view] at h₃
    have h₃ : At fs {n} 5
      ((fs.view.setNode n ((fs.view.node n).write src f.off len)).setLocked n true) fs₃ := h₃
    refine (h₃.iunlock h.unlocked).imp ?_
    exact fun _ fs₄ h₄ => h₄.ret fun fs' hdone => Or.inr ⟨rfl, by split <;> exact ⟨_, rfl⟩, hdone⟩

end Files

end Fs
end Xv6
