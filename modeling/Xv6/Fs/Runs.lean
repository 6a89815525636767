import Mathlib.Tactic
import Xv6.Fs.Image
import Xv6.Fs.Moves
import Xv6.Lib.Run

/-!
# Runs of system calls

Processes make system calls, in any order and with any arguments.  The calls run one at a time,
each from its first step to its last: that they overlap in the kernel is not modelled.  Only a
`filewrite` is cut, into its rounds, which are transactions with other calls between them.  Of
the processes only the references to inodes matter: current directories and open files.  The log
and the buffer cache always have room for the blocks of a call.

Main definitions:

- {lit}`World`: the file system and the references that are held.
- {lit}`Call`, {lit}`perform`: the calls and what they do.

Main results:

- Theorem {lit}`wp_perform`: one call from a state that satisfies the invariant.
- Theorem {lit}`inv_of_run`: the invariant holds in every run on a well-formed image.
-/

namespace Xv6

open Lib

namespace Fs

open Calls

/-! ## The system -/

/-- What a reference to an inode is held for. -/
inductive Kind where
  | cwd
  | file (f : File)
deriving DecidableEq

/-- A current directory of a process, or a file structure. -/
structure Handle where
  ip : Nat
  kind : Kind
deriving DecidableEq

/-- The file system and what is held by the processes. -/
structure World where
  fs : Fs
  held : List Handle

/-- The calls; `write` is one round of `filewrite`.  `room` tells whether `open` gets a file
structure and a descriptor, and `ok` and `src` stand for the memory of the caller. -/
inductive Call where
  | mkdir (path : Name)
  | mknod (path : Name) (major minor : Nat)
  | link (old new : Name)
  | unlink (path : Name)
  | open (path : Name) (omode : Nat) (room : Bool)
  | chdir (path : Name)
  | dup
  | close
  | read (ok : Nat → Bool) (n : Nat)
  | write (src : Source) (n : Nat)
  | stat

/-- Paths are followed from a current directory; files that are not devices are read, or written
in rounds of at most `maxWrite` bytes, if they have been opened for that. -/
def Call.allowed : Call → Kind → Bool
  | .dup, _ | .close, _ | .stat, .file _ => true
  | .read _ n, .file f => f.readable && !f.device && decide (n < 2 ^ 32)
  | .write _ n, .file f => f.writable && !f.device && decide (n ≤ maxWrite)
  | .mkdir _, .cwd | .mknod _ _ _, .cwd | .link _ _, .cwd | .unlink _, .cwd | .open _ _ _, .cwd
  | .chdir _, .cwd => true
  | _, _ => false

/-- The file structure `d` has become `f`. -/
def setFile (held : List Handle) (d : Handle) (f : File) : List Handle :=
  ⟨d.ip, .file f⟩ :: held.erase d

/-- A call with the reference `d`, where `held` are all references; it returns whether it
succeeded, and the references that are held afterwards. -/
def perform (d : Handle) (held : List Handle) : Call → Prog Fs (Bool × List Handle)
  | .mkdir path => do return (decide ((← makeNode d.ip path tDir 0 0) = 0), held)
  | .mknod path major minor => do
    return (decide ((← makeNode d.ip path tDevice (ushort major) (ushort minor)) = 0), held)
  | .link old new => do return (decide ((← sysLink d.ip old new) = 0), held)
  | .unlink path => do return (decide ((← sysUnlink d.ip path) = 0), held)
  | .open path omode room => do
    match ← sysOpen d.ip path omode room with
    | none => return (false, held)
    | some (ip, f) => return (true, ⟨ip, .file f⟩ :: held)
  | .chdir path => do
    match ← sysChdir d.ip path with
    | none => return (false, held)
    | some ip => return (true, ⟨ip, .cwd⟩ :: held.erase d)
  | .dup =>
    match d.kind with
    | .cwd => do
      idup d.ip
      return (true, d :: held)
    | .file f => return (true, setFile held d { f with ref := f.ref + 1 })
  | .close =>
    match d.kind with
    | .cwd => do
      dropInode d.ip
      return (true, held.erase d)
    | .file f => do
      match ← fileclose d.ip f with
      | none => return (true, held.erase d)
      | some f' => return (true, setFile held d f')
  | .read ok n =>
    match d.kind with
    | .cwd => return (false, held)
    | .file f => do
      let r ← fileread d.ip f ok n
      return (true, setFile held d r.2)
  | .write src n =>
    match d.kind with
    | .cwd => return (false, held)
    | .file f => do
      let r ← writeChunk d.ip f src n
      return (decide (r.1 = n), setFile held d r.2)
  | .stat => do
    let _ ← filestat d.ip
    return (true, held)

/-- One call; there is no next state if it panics. -/
def step (w : World) (a : Handle × Call) : Option World :=
  match perform a.1 w.held a.2 w.fs with
  | .ok r fs => some ⟨fs, r.2⟩
  | .error _ _ => none

/-- A call is made with a reference that is held. -/
def Rule (w : World) (a : Handle × Call) : Prop :=
  a.1 ∈ w.held ∧ a.2.allowed a.1.kind = true

/-- The rule is decidable. -/
instance (w : World) (a : Handle × Call) : Decidable (Rule w a) :=
  inferInstanceAs (Decidable (_ ∧ _))

/-- The first process, in the root directory. -/
def boot (sb : Superblock) (disk : Nat → Block) : World :=
  ⟨mounted sb disk 0, [⟨rootino, .cwd⟩]⟩

/-! ## The invariant -/

/-- The number of references to an inode. -/
def holders (held : List Handle) (n : Nat) : Nat :=
  (held.map Handle.ip).count n

/-- Besides the bitmap, the last transaction has logged at most `m` blocks. -/
def LoggedLe (fs : Fs) (m : Nat) : Prop :=
  ∃ X : Finset Nat, X.card ≤ m ∧ ∀ b ∈ fs.logged, b ∈ X ∨ b ∈ bitmap fs.sb

/-- What is known of a file structure for an inode of some type. -/
def FileOk (f : File) (type : Nat) : Prop :=
  1 ≤ f.ref ∧ (f.device = true ↔ type = tDevice) ∧ (f.writable = true → type ≠ tDir)

/-- What holds between calls. -/
structure Inv (w : World) : Prop where
  ok : Ok w.fs
  quiet : w.fs.outstanding = 0
  settled : Settled w.fs.sb.ninodes w.fs.view
  refs : ∀ n, w.fs.view.ref n = holders w.held n
  files : ∀ d ∈ w.held, ∀ f, d.kind = .file f → FileOk f (w.fs.view.node d.ip).attr.type
  logged : LoggedLe w.fs 8

/-- A call that could not open the file that it has made. -/
def MadeOnly (w : World) (d : Handle) (c : Call) (v : View) : Prop :=
  ∃ path omode dp ip name, c = .open path omode false ∧ omode &&& oCreate ≠ 0 ∧
    Fresh w.fs.view.node w.fs.sb.ninodes d.ip path dp ip name ∧ v = freshView w.fs.view dp ip name

/-- What a call leaves behind. -/
structure Next (w : World) (d : Handle) (c : Call) (r : Bool × List Handle) (fs' : Fs) : Prop where
  inv : Inv ⟨fs', r.2⟩
  sb : fs'.sb = w.fs.sb
  failed : r.1 = false → r.2.Perm w.held ∧ (fs'.view = w.fs.view ∨ MadeOnly w d c fs'.view)

section Holders

variable {held : List Handle} {d : Handle} {n : Nat}

/-- One more holder. -/
theorem holders_cons : holders (d :: held) n = holders held n + if d.ip = n then 1 else 0 := by
  rw [holders, List.map_cons, List.count_cons]
  simp only [beq_iff_eq]
  rfl

/-- One holder less. -/
theorem holders_erase (hd : d ∈ held) :
    holders (held.erase d) n + (if d.ip = n then 1 else 0) = holders held n := by
  rw [← holders_cons]
  exact ((List.perm_cons_erase hd).map Handle.ip).count_eq n |>.symm

/-- An inode that is held. -/
theorem holders_pos (hd : d ∈ held) : 0 < holders held d.ip :=
  List.count_pos_iff.mpr (List.mem_map_of_mem hd)

/-- The offset of a file does not matter. -/
theorem holders_setFile (hd : d ∈ held) (f : File) :
    holders (setFile held d f) n = holders held n := by
  rw [setFile, holders_cons]
  exact holders_erase hd

end Holders

section Inv

variable {w : World} {d : Handle} {fs' : Fs} {v : View}

/-- The references after a change. -/
theorem ref_addRef (v : View) (n m : Nat) (j : Int) :
    (v.addRef n j).ref m = v.ref m + if n = m then j else 0 := by
  by_cases hm : n = m
  · rw [if_pos hm, hm, View.ref_addRef_self]
  · rw [if_neg hm, View.ref_addRef_of_ne _ _ (Ne.symm hm), add_zero]

/-- A held inode has a reference. -/
theorem Inv.ref_pos (h : Inv w) (hd : d ∈ w.held) : 0 < w.fs.view.ref d.ip := by
  have := holders_pos hd
  rw [h.refs]
  omega

/-- A process is ready for the next call. -/
theorem Inv.ready (h : Inv w) (hd : d ∈ w.held) : Ready w.fs.sb.ninodes w.fs.view d.ip := by
  obtain ⟨hpos, hlt, -⟩ := h.settled.live d.ip (h.ref_pos hd)
  exact ⟨h.settled.unlocked, dirs_of_dirOk h.settled.dirs, hpos, hlt, h.ref_pos hd⟩

/-- The inode of a handle can be locked. -/
theorem Inv.usable (h : Inv w) (hd : d ∈ w.held) : Usable w.fs d.ip := by
  obtain ⟨hpos, hlt, htype⟩ := h.settled.live d.ip (h.ref_pos hd)
  exact ⟨h.ok, hpos, hlt, h.ref_pos hd, h.settled.unlocked _, htype⟩

/-- The file system is well formed, its view has become `v`, and little has been logged. -/
structure Becomes (fs fs' : Fs) (v : View) : Prop where
  ok : Ok fs'
  view : fs'.view = v
  sb : fs'.sb = fs.sb
  outstanding : fs'.outstanding = fs.outstanding
  logged : LoggedLe fs' 8

/-- A transaction of few blocks. -/
theorem Done.becomes {I : Finset Nat} {c : Nat} {fs : Fs} (h : Done I c fs fs' v)
    (hfew : I.card + c ≤ 8) : Becomes fs fs' v := by
  obtain ⟨Y, hY, hlogs⟩ := h.logs
  refine ⟨h.ok, h.view, h.sb, h.outstanding, I.image (iblock fs.sb) ∪ Y, ?_, fun b hb => ?_⟩
  · have := Finset.card_union_le (I.image (iblock fs.sb)) Y
    have := Finset.card_image_le (s := I) (f := iblock fs.sb)
    omega
  · rw [h.sb]
    rcases hlogs b hb with hI | hbitmap | hb
    · exact Or.inl (Finset.mem_union_left _ hI)
    · exact Or.inr hbitmap
    · exact Or.inl (Finset.mem_union_right _ hb)

/-- An operation that logs nothing. -/
theorem Inv.becomes (h : Inv w) (hpost : Post w.fs fs' v ∅) : Becomes w.fs fs' v := by
  obtain ⟨X, hX, hlogged⟩ := h.logged
  refine ⟨hpost.ok, hpost.view, hpost.sb, hpost.outstanding, X, hX, fun b hb => ?_⟩
  rw [hpost.sb]
  exact hlogged b ((hpost.logs b hb).resolve_right (Set.notMem_empty b))

/-- How a call keeps the invariant: what happens to the files is a sequence of moves, the
references are counted again, and who can write is known. -/
theorem Inv.next {held : List Handle} (h : Inv w) (hfs : Becomes w.fs fs' v)
    (hmoves : Moves w.fs.sb.ninodes w.fs.view v) (hrefs : ∀ n, v.ref n = holders held n)
    (hheld : ∀ e ∈ held, ∀ f, e.kind = .file f → FileOk f (v.node e.ip).attr.type) :
    Inv ⟨fs', held⟩ := by
  obtain ⟨hok, rfl, hsb, hquiet, hlogged⟩ := hfs
  refine ⟨hok, hquiet.trans h.quiet, ?_, hrefs, hheld, hlogged⟩
  change Settled fs'.sb.ninodes fs'.view
  rw [hsb]
  exact h.settled.moves h.ok.core.wf.ninodes_le hmoves

/-- Nothing has happened to the files and references. -/
theorem Inv.same (h : Inv w) (hfs : Becomes w.fs fs' w.fs.view) : Inv ⟨fs', w.held⟩ :=
  h.next hfs .refl h.refs h.files

/-- A file structure has changed. -/
theorem Inv.setFile {f : File} (h : Inv w) (hd : d ∈ w.held)
    (hf : FileOk f (w.fs.view.node d.ip).attr.type) : Inv ⟨w.fs, setFile w.held d f⟩ := by
  refine ⟨h.ok, h.quiet, h.settled, fun n => ?_, fun e he g hg => ?_, h.logged⟩
  · rw [holders_setFile hd]
    exact h.refs n
  · rcases List.mem_cons.mp he with rfl | he
    · cases hg
      exact hf
    · exact h.files e (List.mem_of_mem_erase he) g hg

/-- A file that is held keeps its type. -/
theorem Inv.keeps (h : Inv w) (hmove : Move w.fs.sb.ninodes w.fs.view v) {e : Handle}
    (he : e ∈ w.held) (href : 0 < v.ref e.ip) :
    (v.node e.ip).attr.type = (w.fs.view.node e.ip).attr.type :=
  hmove.type_eq (h.settled.live e.ip (h.ref_pos he)).2.2 href

/-- One move that leaves the references alone. -/
theorem Inv.move (h : Inv w) (hfs : Becomes w.fs fs' v)
    (hmove : Move w.fs.sb.ninodes w.fs.view v) (href : v.ref = w.fs.view.ref) :
    Inv ⟨fs', w.held⟩ := by
  refine h.next hfs (.single hmove) (fun n => by rw [href, h.refs]) fun e he => ?_
  rw [h.keeps hmove he (by rw [href]; exact h.ref_pos he)]
  exact h.files e he

/-! ## The calls -/

section Calls

variable {c : Call}

/-- A call that changes no file and no handle. -/
theorem Inv.next_same (h : Inv w) (hfs : Becomes w.fs fs' w.fs.view) (b : Bool) :
    Next w d c (b, w.held) fs' :=
  ⟨h.same hfs, hfs.sb, fun _ => ⟨.refl _, Or.inl hfs.view⟩⟩

/-- A move that keeps the references. -/
theorem Inv.next_move (h : Inv w) (hfs : Becomes w.fs fs' v)
    (hmove : Move w.fs.sb.ninodes w.fs.view v) (href : v.ref = w.fs.view.ref) :
    Next w d c (true, w.held) fs' :=
  ⟨h.move hfs hmove href, hfs.sb, fun hfalse => nomatch hfalse⟩

/-- What a new file does to its directory. -/
theorem Fresh.move {N : View} {ninodes cwd dp ip type major minor : Nat} {path name : Name}
    (h : Fresh N.node ninodes cwd path dp ip name) (htype : type ≠ 0) :
    Move ninodes N ((made N dp ip name type major minor).settle dp) :=
  .make ⟨h.dp_pos, h.dp_lt⟩ h.isDir h.absent ⟨h.pos, h.lt⟩ h.free htype

/-- A new file ends with no reference. -/
theorem ref_fresh (v : View) {dp ip type major minor : Nat} {name : Name} :
    ((made v dp ip name type major minor).settle dp).ref = v.ref := by
  rw [View.ref_settle, ref_made]

/-- `mkdir` and `mknod`. -/
theorem wp_makeNode_next {path : Name} {type major minor : Nat} (h : Inv w) (hd : d ∈ w.held)
    (htype : type = tDir ∨ type = tDevice) (hmajor : major < 2 ^ 16) (hminor : minor < 2 ^ 16) :
    Wp (makeNode d.ip path type major minor) w.fs
      (fun r fs' => Next w d c (decide (r = 0), w.held) fs')
      (fun e _ => TreePanic w.fs.view.node d.ip e) := by
  have hne : type ≠ 0 := by
    rcases htype with rfl | rfl <;> decide
  refine (wp_makeNode h.ok (h.ready hd) htype hmajor hminor).imp ?_
  rintro r fs' (⟨rfl, hdone⟩ | ⟨rfl, dp, ip, name, hfresh, hdone⟩)
  · exact h.next_same (hdone.becomes (by decide)) _
  · exact h.next_move (hdone.becomes (Nat.add_le_add_right Finset.card_le_two 6))
      (hfresh.move hne) (ref_fresh _)

/-- `sys_link`. -/
theorem wp_sysLink_next {old new : Name} (h : Inv w) (hd : d ∈ w.held) :
    Wp (sysLink d.ip old new) w.fs (fun r fs' => Next w d c (decide (r = 0), w.held) fs')
      (fun e _ => TreePanic w.fs.view.node d.ip e) := by
  refine (wp_sysLink h.ok (h.ready hd)).imp ?_
  rintro r fs' (⟨rfl, dp, ip, hdone⟩ |
    ⟨rfl, dp, ip, name, hdp, hdp', hip, hip', hdir, htype, hfile, habsent, hdone⟩)
  · exact h.next_same (hdone.becomes (Finset.card_le_two.trans (by decide))) _
  · refine h.next_move (hdone.becomes ?_)
      (.link ⟨hdp, hdp'⟩ hdir habsent ⟨hip, hip'⟩ htype hfile) (by rw [View.ref_settle]; rfl)
    have := Finset.card_le_two (a := dp) (b := ip)
    omega

/-- `sys_unlink`. -/
theorem wp_sysUnlink_next {path : Name} (h : Inv w) (hd : d ∈ w.held) :
    Wp (sysUnlink d.ip path) w.fs (fun r fs' => Next w d c (decide (r = 0), w.held) fs')
      (fun e _ => TreePanic w.fs.view.node d.ip e) := by
  refine (wp_sysUnlink h.ok (h.ready hd)).imp ?_
  rintro r fs' (⟨rfl, hdone⟩ |
    ⟨rfl, dp, ip, j, a, hchild, htype, hnlink, hbare, hne, hdone⟩)
  · exact h.next_same (hdone.becomes (by decide)) _
  · refine h.next_move (hdone.becomes ?_) (.unlink hchild htype hnlink hbare hne)
      (by rw [View.ref_settle, View.ref_settle]; rfl)
    have := Finset.card_le_two (a := dp) (b := ip)
    omega

/-! ### `open` -/

/-- `open` ends with one more reference. -/
theorem ref_openedView (v : View) (ip omode : Nat) :
    (openedView v ip omode).ref = (v.addRef ip 1).ref := by
  unfold openedView
  split <;> rfl

/-- `open` keeps the types. -/
theorem type_openedView (v : View) (ip omode n : Nat) :
    ((openedView v ip omode).node n).attr.type = (v.node n).attr.type := by
  unfold openedView
  split
  · exact type_update (x := (v.node ip).empty) rfl n
  · rfl

/-- `open` is at most a truncation. -/
theorem moves_openedView {n ip omode : Nat} (hip : 0 < ip ∧ ip < n)
    (htype : (v.node ip).attr.type ≠ 0) : Moves n v (openedView v ip omode) := by
  have htake : Move n v (v.addRef ip 1) := .take hip htype
  unfold openedView
  split
  next hcond =>
    refine (Relation.ReflTransGen.single htake).tail (.write ?_ rfl rfl)
    change (v.node ip).attr.type ≠ tDir
    rw [hcond.2]
    decide
  · exact .single htake

/-- A file has been opened, from a view `v` with the same references on. -/
theorem Inv.opened {ip omode : Nat} {path : Name} {room : Bool} (h : Inv w)
    (hmoves : Moves w.fs.sb.ninodes w.fs.view v) (href : v.ref = w.fs.view.ref)
    (hkeeps : ∀ e ∈ w.held, (v.node e.ip).attr.type = (w.fs.view.node e.ip).attr.type)
    (hip : 0 < ip ∧ ip < w.fs.sb.ninodes) (htype : (v.node ip).attr.type ≠ 0)
    (hdir : (v.node ip).attr.type = tDir → omode = 0)
    (hfs : Becomes w.fs fs' (openedView v ip omode)) :
    Next w d (.open path omode room)
      (true, ⟨ip, .file (opened omode ((v.node ip).attr.type = tDevice))⟩ :: w.held) fs' := by
  refine ⟨h.next hfs (hmoves.trans (moves_openedView hip htype)) (fun n => ?_) ?_, hfs.sb,
    fun hfalse => nomatch hfalse⟩
  · rw [ref_openedView, ref_addRef, href, h.refs, holders_cons]
    split <;> simp_all
  · intro e he f hf
    rw [type_openedView]
    rcases List.mem_cons.mp he with rfl | he
    · cases hf
      refine ⟨le_rfl, decide_eq_true_iff, fun hwritable hd => ?_⟩
      rw [hdir hd] at hwritable
      cases hwritable
    · rw [hkeeps e he]
      exact h.files e he f hf

/-- `sys_open`. -/
theorem wp_sysOpen_next {path : Name} {omode : Nat} {room : Bool} (h : Inv w) (hd : d ∈ w.held) :
    Wp (perform d w.held (.open path omode room)) w.fs
      (fun r fs' => Next w d (.open path omode room) r fs')
      (fun e _ => TreePanic w.fs.view.node d.ip e) := by
  simp only [perform, wp_bind]
  refine (wp_sysOpen h.ok (h.ready hd)).imp ?_
  rintro r fs' (⟨rfl, hdone⟩ | ⟨ip, rfl, hpos, hlt, htype, hdir, hdone⟩ |
    ⟨hcreate, dp, ip, name, hfresh, ⟨rfl, rfl, hdone⟩ | ⟨rfl, hdone⟩⟩)
  · exact wp_pure.mpr (h.next_same (hdone.becomes (by decide)) _)
  · exact wp_pure.mpr (h.opened .refl rfl (fun _ _ => rfl) ⟨hpos, hlt⟩ htype hdir
      (hdone.becomes (by simp)))
  · have hfs := hdone.becomes (Nat.add_le_add_right Finset.card_le_two 6)
    exact wp_pure.mpr ⟨h.move hfs (hfresh.move (by decide)) (ref_fresh _), hfs.sb,
      fun _ => ⟨.refl _, Or.inr ⟨path, omode, dp, ip, name, rfl, hcreate, hfresh, hfs.view⟩⟩⟩
  · have hmove : Move w.fs.sb.ninodes w.fs.view (freshView w.fs.view dp ip name) :=
      hfresh.move (by decide)
    have hfile : ((freshView w.fs.view dp ip name).node ip).attr.type = tFile := by
      rw [View.node_settle_of_ne hfresh.ne, node_made, if_neg (by decide)]
      rfl
    have hdev : opened omode false = opened omode
        (((freshView w.fs.view dp ip name).node ip).attr.type = tDevice) := by
      rw [hfile]
      rfl
    rw [hdev]
    refine wp_pure.mpr (h.opened (.single hmove) (ref_fresh _) (fun e he => ?_)
      ⟨hfresh.pos, hfresh.lt⟩ (by rw [hfile]; decide) (fun hdir => ?_)
      (hdone.becomes (Nat.add_le_add_right Finset.card_le_two 6)))
    · exact h.keeps hmove he (by rw [ref_fresh]; exact h.ref_pos he)
    · rw [hfile] at hdir
      exact absurd hdir (by decide)

/-! ### References -/

/-- `sys_chdir`. -/
theorem wp_sysChdir_next {path : Name} (h : Inv w) (hd : d ∈ w.held) :
    Wp (perform d w.held (.chdir path)) w.fs (fun r fs' => Next w d (.chdir path) r fs')
      (fun e _ => TreePanic w.fs.view.node d.ip e) := by
  simp only [perform, wp_bind]
  refine (wp_sysChdir h.ok (h.ready hd)).imp ?_
  rintro r fs' (⟨rfl, hdone⟩ | ⟨ip, rfl, hpos, hlt, htype, hdone⟩)
  · exact wp_pure.mpr (h.next_same (hdone.becomes (by decide)) _)
  · have hfs := hdone.becomes (by simp)
    have htake : Move w.fs.sb.ninodes w.fs.view (w.fs.view.addRef ip 1) :=
      .take ⟨hpos, hlt⟩ (by rw [htype]; decide)
    have hdrop : Move w.fs.sb.ninodes (w.fs.view.addRef ip 1) (movedView w.fs.view d.ip ip) := by
      refine .drop ?_
      have := h.ref_pos hd
      rw [ref_addRef]
      split <;> omega
    have hrefs : ∀ n, (movedView w.fs.view d.ip ip).ref n =
        holders (⟨ip, .cwd⟩ :: w.held.erase d) n := by
      intro n
      have hcount := holders_erase hd (n := n)
      rw [movedView, View.ref_settle, ref_addRef, ref_addRef, h.refs, holders_cons]
      split at hcount <;> simp_all
      omega
    refine wp_pure.mpr ⟨h.next hfs ((Relation.ReflTransGen.single htake).tail hdrop) hrefs ?_,
      hfs.sb, fun hfalse => nomatch hfalse⟩
    intro e he f hf
    rcases List.mem_cons.mp he with rfl | he
    · cases hf
    · have hmem := List.mem_of_mem_erase he
      have hlive := (h.settled.live e.ip (h.ref_pos hmem)).2.2
      rw [hdrop.type_eq hlive]
      · exact h.files e hmem f hf
      · rw [hrefs]
        have := holders_pos (List.mem_cons_of_mem ⟨ip, .cwd⟩ he)
        omega

/-- Giving up a handle. -/
theorem wp_dropInode_next (h : Inv w) (hd : d ∈ w.held) {E : String → Fs → Prop} :
    Wp (dropInode d.ip) w.fs (fun _ fs' => Next w d c (true, w.held.erase d) fs') E := by
  refine (wp_dropInode h.ok (h.settled.unlocked _) (h.ref_pos hd)).imp ?_
  intro _ fs' hdone
  have hfs := hdone.becomes (by simp)
  have hdrop : Move w.fs.sb.ninodes w.fs.view ((w.fs.view.addRef d.ip (-1)).settle d.ip) :=
    .drop (h.ref_pos hd)
  have hrefs : ∀ n, ((w.fs.view.addRef d.ip (-1)).settle d.ip).ref n =
      holders (w.held.erase d) n := by
    intro n
    have hcount := holders_erase hd (n := n)
    rw [View.ref_settle, ref_addRef, h.refs]
    split at hcount <;> simp_all
    omega
  refine ⟨h.next hfs (.single hdrop) hrefs fun e he => ?_, hfs.sb, fun hfalse => nomatch hfalse⟩
  have hmem := List.mem_of_mem_erase he
  have hpos := holders_pos he
  rw [h.keeps hdrop hmem]
  · exact h.files e hmem
  · rw [hrefs]
    exact_mod_cast hpos

/-- A copy of a handle. -/
theorem wp_idup_next (h : Inv w) (hd : d ∈ w.held) {E : String → Fs → Prop} :
    Wp (idup d.ip) w.fs (fun _ fs' => Next w d c (true, d :: w.held) fs') E := by
  refine (wp_idup h.ok (h.ref_pos hd)).imp ?_
  intro _ fs' hpost
  obtain ⟨hpos, hlt, htype⟩ := h.settled.live d.ip (h.ref_pos hd)
  have hfs := h.becomes hpost
  refine ⟨h.next hfs (.single (.take ⟨hpos, hlt⟩ htype)) (fun n => ?_) fun e he => ?_, hfs.sb,
    fun hfalse => nomatch hfalse⟩
  · rw [ref_addRef, h.refs, holders_cons]
    split <;> simp_all
  · rcases List.mem_cons.mp he with rfl | he
    · exact h.files e hd
    · exact h.files e he

/-! ### File structures -/

/-- A call that has done nothing but change a file structure. -/
theorem Next.setFile {f : File} (h : Next w d c (true, w.held) fs') (hd : d ∈ w.held)
    (hf : FileOk f (fs'.view.node d.ip).attr.type) :
    Next w d c (true, Fs.setFile w.held d f) fs' :=
  ⟨h.inv.setFile hd hf, h.sb, fun hfalse => nomatch hfalse⟩

/-- Nothing has happened. -/
theorem Inv.becomes_refl (h : Inv w) : Becomes w.fs w.fs w.fs.view :=
  ⟨h.ok, rfl, rfl, rfl, h.logged⟩

/-- `dup`. -/
theorem wp_dup_next (h : Inv w) (hd : d ∈ w.held) {E : String → Fs → Prop} :
    Wp (perform d w.held .dup) w.fs (fun r fs' => Next w d .dup r fs') E := by
  simp only [perform]
  split
  · simp only [wp_bind, wp_pure]
    exact wp_idup_next h hd
  next f hf =>
    obtain ⟨href, hok⟩ := h.files d hd f hf
    exact wp_pure.mpr
      ((h.next_same h.becomes_refl true).setFile hd ⟨Nat.le_add_right_of_le href, hok⟩)

/-- `close`. -/
theorem wp_close_next (h : Inv w) (hd : d ∈ w.held) {E : String → Fs → Prop} :
    Wp (perform d w.held .close) w.fs (fun r fs' => Next w d .close r fs') E := by
  simp only [perform]
  split
  · simp only [wp_bind, wp_pure]
    exact wp_dropInode_next h hd
  next f hf =>
    obtain ⟨href, hok⟩ := h.files d hd f hf
    simp only [fileclose, if_neg (Nat.not_lt.mpr href), wp_bind]
    split
    next hmore =>
      exact wp_pure.mpr (wp_pure.mpr ((h.next_same h.becomes_refl true).setFile hd ⟨hmore, hok⟩))
    · simp only [wp_bind, wp_pure]
      exact wp_dropInode_next h hd

/-- `read`. -/
theorem wp_read_next {ok : Nat → Bool} {n : Nat} (h : Inv w) (hd : d ∈ w.held) (hn : n < 2 ^ 32)
    {E : String → Fs → Prop} :
    Wp (perform d w.held (.read ok n)) w.fs (fun r fs' => Next w d (.read ok n) r fs') E := by
  simp only [perform]
  split
  · exact wp_pure.mpr (h.next_same h.becomes_refl _)
  next f hf =>
    simp only [wp_bind, wp_pure]
    refine (wp_fileread (h.usable hd) hn).imp ?_
    rintro r fs' ⟨⟨off, hr⟩, hpost, -⟩
    rw [hr]
    refine (h.next_same (h.becomes hpost) true).setFile hd ?_
    rw [hpost.view]
    exact h.files d hd f hf

/-- `write`. -/
theorem wp_write_next {src : Source} {n : Nat} (h : Inv w) (hd : d ∈ w.held)
    (hc : (Call.write src n).allowed d.kind = true) :
    Wp (perform d w.held (.write src n)) w.fs (fun r fs' => Next w d (.write src n) r fs')
      (fun e _ => e = "balloc: out of blocks") := by
  simp only [perform]
  split
  · exact wp_pure.mpr (h.next_same h.becomes_refl _)
  next f hf =>
    have hfile := h.files d hd f hf
    simp only [hf, Call.allowed, Bool.and_eq_true, decide_eq_true_eq] at hc
    simp only [wp_bind, wp_pure]
    refine (wp_writeChunk (h.usable hd) hc.2).imp ?_
    rintro r fs' (⟨rfl, hdone⟩ | ⟨hr, ⟨off, hoff⟩, hdone⟩)
    · have hnext : Next w d (.write src n) (true, w.held) fs' :=
        h.next_same (hdone.becomes (by decide)) _
      refine ⟨hnext.inv.setFile hd (by rw [hdone.view]; exact hfile), hnext.sb,
        fun _ => ⟨?_, Or.inl hdone.view⟩⟩
      have hsame : (⟨d.ip, .file f⟩ : Handle) = d := by rw [← hf]
      rw [Fs.setFile, hsame]
      exact (List.perm_cons_erase hd).symm
    · rw [decide_eq_true hr, hoff]
      have hmove : Move w.fs.sb.ninodes w.fs.view
          (w.fs.view.setNode d.ip ((w.fs.view.node d.ip).write src f.off n)) :=
        .write (hfile.2.2 hc.1.1) rfl rfl
      refine (h.next_move (hdone.becomes (by simp)) hmove rfl).setFile hd ?_
      rw [hdone.view, h.keeps hmove hd (h.ref_pos hd)]
      exact hfile

/-- One call: it panics for one of the listed reasons, or it keeps the invariant, and changes
nothing if it fails, except that `open` may have made a file. -/
theorem wp_perform (h : Inv w) (hd : d ∈ w.held) (hc : c.allowed d.kind = true) :
    Wp (perform d w.held c) w.fs (fun r fs' => Next w d c r fs')
      (fun e _ => TreePanic w.fs.view.node d.ip e) := by
  cases c with
  | mkdir path =>
    simp only [perform, wp_bind, wp_pure]
    exact wp_makeNode_next h hd (Or.inl rfl) (by decide) (by decide)
  | mknod path major minor =>
    simp only [perform, wp_bind, wp_pure]
    exact wp_makeNode_next h hd (Or.inr rfl) (ushort_lt _) (ushort_lt _)
  | link old new =>
    simp only [perform, wp_bind, wp_pure]
    exact wp_sysLink_next h hd
  | unlink path =>
    simp only [perform, wp_bind, wp_pure]
    exact wp_sysUnlink_next h hd
  | «open» path omode room => exact wp_sysOpen_next h hd
  | chdir path => exact wp_sysChdir_next h hd
  | dup => exact wp_dup_next h hd
  | close => exact wp_close_next h hd
  | read ok n =>
    refine wp_read_next h hd ?_
    cases hkind : d.kind with
    | cwd =>
      rw [hkind] at hc
      cases hc
    | file f =>
      rw [hkind] at hc
      simp only [Call.allowed, Bool.and_eq_true, decide_eq_true_eq] at hc
      exact hc.2
  | write src n => exact (wp_write_next h hd hc).mono (fun _ _ => id) fun e _ he => he ▸ .noBlocks
  | stat =>
    simp only [perform, wp_bind, wp_pure]
    exact (wp_filestat (h.usable hd)).imp
      fun _ _ hpost => h.next_same (h.becomes hpost) _

end Calls

end Inv

/-! ## Runs -/

section Runs

variable {sb : Superblock} {disk : Nat → Block} {w : World}

/-- The invariant holds on a mounted image. -/
theorem inv_boot (h : DiskImage sb disk) : Inv (boot sb disk) where
  ok := ok_mounted h 0
  quiet := rfl
  settled := {
    unlocked := fun _ => rfl
    nonneg := (ok_mounted h 0).ref_nonneg
    dirs := fun d hd => ⟨h.dirs.size d hd, h.distinct d hd,
      fun k a m hholds => h.dirs.inum d m ⟨hd, k, a, hholds⟩⟩
    live := fun n hn => by
      obtain rfl : n = rootino := by
        by_contra hne
        have hzero : (mounted sb disk 0).view.ref n = 0 := if_neg hne
        change 0 < (mounted sb disk 0).view.ref n at hn
        omega
      refine ⟨by decide, h.core.wf.root, ?_⟩
      change (Fs.nodeOf sb disk rootino).attr.type ≠ 0
      rw [h.root]
      decide }
  refs n := by
    change (if n = rootino then (1 : Int) else 0) = _
    rw [boot, holders_cons]
    by_cases hn : n = rootino
    · simp [hn, holders]
    · simp [hn, Ne.symm hn, holders]
  files d hd f hf := by
    rw [List.mem_singleton.mp hd] at hf
    cases hf
  logged := ⟨∅, by decide, fun _ hb => absurd hb List.not_mem_nil⟩

/-- The invariant holds after every run. -/
theorem inv_of_run (h : DiskImage sb disk) (hrun : Run step Rule (boot sb disk) w) :
    Inv w ∧ w.fs.sb = sb := by
  refine hrun.invariant (I := fun w => Inv w ∧ w.fs.sb = sb) ⟨inv_boot h, rfl⟩ ?_
  rintro t ⟨d, c⟩ t' ⟨ht, hsb⟩ ⟨hd, hc⟩ hstep
  unfold step at hstep
  split at hstep
  next r fs' hperform =>
    rw [← Option.some.inj hstep]
    have hnext := (wp_perform ht hd hc).of_ok hperform
    exact ⟨hnext.inv, hnext.sb.trans hsb⟩
  · cases hstep

/-! ### What holds in every state of every run -/

/-- The inodes on the disk. -/
abbrev World.inodes (w : World) : Nat → Dinode := dinodes w.fs.sb w.fs.disk

/-- A bit of the bitmap is set exactly for metadata and for blocks that one slot of one inode
refers to. -/
theorem run_block_ownership (h : DiskImage sb disk) (hrun : Run step Rule (boot sb disk) w) :
    (∀ b < sb.size, bitAt (w.fs.disk (bblock sb b)) (b % bpb) = true ↔
      b < sb.nmeta ∨ ∃ n s, owner sb w.fs.disk w.inodes (n, s) = some b) ∧
    (∀ n s n' s' b, owner sb w.fs.disk w.inodes (n, s) = some b →
      owner sb w.fs.disk w.inodes (n', s') = some b → n = n' ∧ s = s') ∧
    ∀ n s b, owner sb w.fs.disk w.inodes (n, s) = some b → sb.nmeta ≤ b ∧ b < sb.size := by
  obtain ⟨hinv, rfl⟩ := inv_of_run h hrun
  have hexact := hinv.ok.core.exact
  refine ⟨fun b hb => ?_, fun n s n' s' b hb hb' => ?_, fun n s b hb => ?_⟩
  · have hiff := hexact.used_iff b
    rw [Prod.exists] at hiff
    exact ⟨fun hbit => hiff.mp ⟨hb, hbit⟩, fun hown => (hiff.mpr hown).2⟩
  · exact Prod.mk.injEq .. ▸ hexact.inj _ _ b hb hb'
  · exact ⟨not_lt.mp (hexact.apart _ b hb), (hexact.mem_used hb).1⟩

/-- Files are not too large and have no holes, directories consist of entries with distinct
names, and reading an inode that is open for reading neither writes nor logs a block. -/
theorem run_sizes_and_reads (h : DiskImage sb disk) (hrun : Run step Rule (boot sb disk) w) :
    (∀ n, Allocated sb w.inodes n → (w.inodes n).size ≤ maxfile * bsize ∧
      (∀ bn, bn * bsize < (w.inodes n).size → addrOf w.fs.disk (w.inodes n) bn ≠ 0) ∧
      ((w.inodes n).type = tDir → (w.inodes n).size % direntSize = 0 ∧
        (w.fs.view.node n).dir.Distinct)) ∧
    ∀ d ∈ w.held, ∀ f ok len, d.kind = .file f → f.readable = true → f.device = false →
      len < 2 ^ 32 → Returns (fileread d.ip f ok len) w.fs fun _ fs' => fs'.disk = w.fs.disk ∧
        fs'.view = w.fs.view ∧ fs'.outstanding = 0 ∧ ∀ b ∈ fs'.logged, b ∈ w.fs.logged := by
  obtain ⟨hinv, rfl⟩ := inv_of_run h hrun
  have hcore := hinv.ok.core
  refine ⟨fun n hn => ⟨hcore.size_le n hn, fun bn => hcore.mapped n bn hn, fun hdir => ?_⟩,
    fun d hd f ok len _ _ _ hlen => ?_⟩
  · have hnode : w.fs.view.node n = (w.inodes n).node w.fs.disk := node_of_allocated hn
    have hdirOk := hinv.settled.dirs n
    rw [hnode] at hdirOk ⊢
    exact ⟨(hdirOk hdir).1, (hdirOk hdir).2.1⟩
  · refine (wp_fileread (hinv.usable hd) hlen).imp ?_
    rintro _ fs' ⟨-, hpost, hdisk⟩
    exact ⟨hdisk, hpost.view, hpost.outstanding.trans hinv.quiet,
      fun b hb => (hpost.logs b hb).resolve_right (Set.notMem_empty b)⟩

/-- Inodes have as many references as there are current directories and file structures for
them, what is referenced is allocated, and what has neither links nor references is free.  File
structures in use have references, and none of a directory can be written. -/
theorem run_references (h : DiskImage sb disk) (hrun : Run step Rule (boot sb disk) w) :
    (∀ n, (w.fs.icache n).ref = holders w.held n) ∧
    (∀ d ∈ w.held, Allocated sb w.inodes d.ip ∧
      ∀ f, d.kind = .file f → FileOk f (w.inodes d.ip).type) ∧
    ∀ n, Allocated sb w.inodes n → (w.inodes n).nlink = 0 → ∃ d ∈ w.held, d.ip = n := by
  obtain ⟨hinv, rfl⟩ := inv_of_run h hrun
  refine ⟨hinv.refs, fun d hd => ?_, fun n hn hzero => ?_⟩
  · obtain ⟨hpos, hlt, htype⟩ := hinv.settled.live d.ip (hinv.ref_pos hd)
    have hsame : (w.fs.view.node d.ip).attr.type = (w.inodes d.ip).type := by
      rw [nodeOf_type hpos hlt, World.inodes, dinodes, if_pos hlt]
      rfl
    rw [hsame] at htype
    exact ⟨⟨hpos, hlt, htype⟩, fun f hf => hsame ▸ hinv.files d hd f hf⟩
  · have hpos := (hinv.ok.orphan n hn hzero).1
    have href : (w.fs.icache n).ref = holders w.held n := hinv.refs n
    rw [href, Nat.cast_pos] at hpos
    obtain ⟨d, hd, hip⟩ := List.mem_map.mp (List.count_pos_iff.mp hpos)
    exact ⟨d, hd, hip⟩

/-- With one bitmap block, a call has logged no more blocks than `begin_op` has reserved. -/
theorem LoggedLe.card_le {fs : Fs} (h : LoggedLe fs 8) (hone : fs.sb.size ≤ bpb) :
    fs.logged.toFinset.card ≤ maxopblocks := by
  obtain ⟨X, hX, hlogged⟩ := h
  have hsub : fs.logged.toFinset ⊆ insert fs.sb.bmapstart X := by
    intro b hb
    rcases hlogged b (List.mem_toFinset.mp hb) with hmem | ⟨c, hc, rfl⟩
    · exact Finset.mem_insert_of_mem hmem
    · have hdiv : c / bpb = 0 := Nat.div_eq_of_lt (hc.trans_le hone)
      rw [bblock, hdiv, Nat.zero_add]
      exact Finset.mem_insert_self _ _
  calc fs.logged.toFinset.card ≤ (insert fs.sb.bmapstart X).card := Finset.card_le_card hsub
    _ ≤ X.card + 1 := Finset.card_insert_le _ _
    _ ≤ maxopblocks := Nat.succ_le_succ (hX.trans (by decide))

/-- With one bitmap block, every transaction stays within the reservation of `begin_op`. -/
theorem run_transactions_fit (h : DiskImage sb disk) (hone : sb.size ≤ bpb)
    (hrun : Run step Rule (boot sb disk) w) : w.fs.logged.toFinset.card ≤ maxopblocks := by
  obtain ⟨hinv, rfl⟩ := inv_of_run h hrun
  exact hinv.logged.card_le hone

/-- A call or a round of `filewrite` that fails leaves files, references and the processes' handles
as they were, except that `open` may have made the file before it found no room for the
descriptor. -/
theorem run_failed_calls (h : DiskImage sb disk) (hrun : Run step Rule (boot sb disk) w)
    {d : Handle} {c : Call} (hrule : Rule w (d, c)) :
    Wp (perform d w.held c) w.fs
      (fun r fs' => r.1 = false →
        r.2.Perm w.held ∧ (fs'.view = w.fs.view ∨ MadeOnly w d c fs'.view))
      (fun _ _ => True) :=
  (wp_perform (inv_of_run h hrun).1 hrule.1 hrule.2).mono (fun _ _ hnext => hnext.failed)
    fun _ _ _ => trivial

/-- With one bitmap block, a call panics only for the reasons listed in {lit}`TreePanic`, and one
that returns has logged no more blocks than are reserved for it. -/
theorem run_panics (h : DiskImage sb disk) (hone : sb.size ≤ bpb)
    (hrun : Run step Rule (boot sb disk) w) {d : Handle} {c : Call} (hrule : Rule w (d, c)) :
    Wp (perform d w.held c) w.fs (fun _ fs' => fs'.logged.toFinset.card ≤ maxopblocks)
      fun e _ => TreePanic w.fs.view.node d.ip e := by
  obtain ⟨hinv, rfl⟩ := inv_of_run h hrun
  refine (wp_perform hinv hrule.1 hrule.2).imp fun r fs' hnext => hnext.inv.logged.card_le ?_
  exact hnext.sb ▸ hone

end Runs

/-! ### A run -/

/-- The first process makes a directory.  No inode is left then, and there is no file `b`. -/
theorem run_mkdir : ∃ w : World, Run step Rule (boot Tiny.sb Tiny.tinyDisk) w ∧
    w.held = [⟨rootino, .cwd⟩] ∧ w.fs.logged.length = 11 ∧
    outcome (perform ⟨rootino, .cwd⟩ w.held (.unlink [98])) w.fs =
      .ok (false, [⟨rootino, .cwd⟩]) ∧
    outcome (perform ⟨rootino, .cwd⟩ w.held (.mkdir [98])) w.fs =
      .error "ialloc: no inodes" := by
  have hexec : (Lib.exec step Rule (boot Tiny.sb Tiny.tinyDisk)
      [(⟨rootino, .cwd⟩, .mkdir [97])]).map (fun w => decide (w.held = [⟨rootino, .cwd⟩] ∧
        w.fs.logged.length = 11 ∧
        outcome (perform ⟨rootino, .cwd⟩ w.held (.unlink [98])) w.fs =
          .ok (false, [⟨rootino, .cwd⟩]) ∧
        outcome (perform ⟨rootino, .cwd⟩ w.held (.mkdir [98])) w.fs =
          .error "ialloc: no inodes")) = some true := by
    decide +kernel
  obtain ⟨w, hrun, hsees⟩ := exec_reaches hexec
  exact ⟨w, hrun, of_decide_eq_true hsees⟩

/-- It then opens the root for reading. -/
theorem run_mkdir_open : ∃ w : World, Run step Rule (boot Tiny.sb Tiny.tinyDisk) w ∧
    w.held = [⟨rootino, .file ⟨1, false, true, false, 0⟩⟩, ⟨rootino, .cwd⟩] := by
  have hexec : (Lib.exec step Rule (boot Tiny.sb Tiny.tinyDisk)
      [(⟨rootino, .cwd⟩, .mkdir [97]), (⟨rootino, .cwd⟩, .open [47] 0 true)]).map World.held =
      some [⟨rootino, .file ⟨1, false, true, false, 0⟩⟩, ⟨rootino, .cwd⟩] := by
    decide +kernel
  exact exec_reaches hexec

theorem run_block_ownership_mkdir : ∃ w : World, w.fs.logged.length = 11 ∧ ∀ n s b,
    owner Tiny.sb w.fs.disk w.inodes (n, s) = some b → Tiny.sb.nmeta ≤ b ∧ b < Tiny.sb.size := by
  obtain ⟨w, hrun, -, hlogged, -⟩ := run_mkdir
  exact ⟨w, hlogged, (run_block_ownership Tiny.image_tinyDisk hrun).2.2⟩

theorem run_sizes_and_reads_open : ∃ w : World,
    w.held = [⟨rootino, .file ⟨1, false, true, false, 0⟩⟩, ⟨rootino, .cwd⟩] ∧
    Returns (fileread rootino ⟨1, false, true, false, 0⟩ (fun _ => true) 64) w.fs fun _ fs' =>
      fs'.disk = w.fs.disk ∧ fs'.view = w.fs.view ∧ fs'.outstanding = 0 ∧
      ∀ b ∈ fs'.logged, b ∈ w.fs.logged := by
  obtain ⟨w, hrun, hheld⟩ := run_mkdir_open
  exact ⟨w, hheld, (run_sizes_and_reads Tiny.image_tinyDisk hrun).2
    ⟨rootino, .file ⟨1, false, true, false, 0⟩⟩ (by rw [hheld]; decide) _ _ _ rfl rfl rfl
    (by decide)⟩

theorem run_references_mkdir : ∃ w : World, w.fs.logged.length = 11 ∧
    Allocated Tiny.sb w.inodes rootino := by
  obtain ⟨w, hrun, hheld, hlogged, -⟩ := run_mkdir
  exact ⟨w, hlogged, ((run_references Tiny.image_tinyDisk hrun).2.1 ⟨rootino, .cwd⟩
    (by rw [hheld]; decide)).1⟩

theorem run_transactions_fit_mkdir : ∃ w : World, w.fs.logged.length = 11 ∧
    w.fs.logged.toFinset.card ≤ maxopblocks := by
  obtain ⟨w, hrun, -, hlogged, -⟩ := run_mkdir
  exact ⟨w, hlogged, run_transactions_fit Tiny.image_tinyDisk (by decide) hrun⟩

/-- There is no file to unlink. -/
theorem run_failed_calls_unlink : ∃ (w : World) (held : List Handle) (fs' : Fs),
    perform ⟨rootino, .cwd⟩ w.held (.unlink [98]) w.fs = .ok (false, held) fs' ∧
    held.Perm w.held ∧
    (fs'.view = w.fs.view ∨ MadeOnly w ⟨rootino, .cwd⟩ (.unlink [98]) fs'.view) := by
  obtain ⟨w, hrun, hheld, -, hfails, -⟩ := run_mkdir
  have hspec := @run_failed_calls _ _ w Tiny.image_tinyDisk hrun ⟨rootino, .cwd⟩ (.unlink [98])
    ⟨by rw [hheld]; decide, by decide⟩
  obtain ⟨fs', hperform⟩ := exists_ok hfails
  exact ⟨w, _, fs', hperform, hspec.of_ok hperform rfl⟩

/-- There is no inode for a second directory. -/
theorem run_panics_mkdir : ∃ (w : World) (fs' : Fs),
    perform ⟨rootino, .cwd⟩ w.held (.mkdir [98]) w.fs = .error "ialloc: no inodes" fs' ∧
    TreePanic w.fs.view.node rootino "ialloc: no inodes" := by
  obtain ⟨w, hrun, hheld, -, -, hpanics⟩ := run_mkdir
  have hspec := @run_panics _ _ w Tiny.image_tinyDisk (by decide) hrun ⟨rootino, .cwd⟩
    (.mkdir [98]) ⟨by rw [hheld]; decide, by decide⟩
  obtain ⟨fs', hperform⟩ := exists_error hpanics
  exact ⟨w, fs', hperform, hspec.of_error hperform⟩

end Fs
end Xv6
