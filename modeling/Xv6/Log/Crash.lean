import Mathlib.Tactic
import Xv6.Log.Solo

/-!
# Crash atomicity of the log

The machine may stop after any prefix of the block writes that have been sent to
the disk; then it boots, possibly several times with further stops, until one
recovery completes.

Main results:

- Theorem {lit}`crash_atomic`: after a boot that finds the log empty, every stop
  and every sequence of recoveries yields the contents of the last commit whose
  header reached the disk.
- Theorem {lit}`crash_loses_update`: after a boot that recovers a transaction,
  a committed update can be lost.
-/

namespace Xv6
namespace Crash

open Lib Bio Log Function

variable {P : Type}

/-! ## Booting -/

section Booting

variable [DecidableEq P] {sb : Superblock} {d c : Nat → Block}

/-- Booting from a disk with a valid header. -/
theorem returns_initlog (p : P) (hbuf : sb.nlog ≤ nbuf)
    (hvalid : (redo sb.logstart sb.nlog).Valid d) :
    Returns (initlog p rootdev sb) (powerOn d) fun _ k => ∃ w lh,
      Shows p rootdev ⟨sb.logstart, sb.nlog, 0, false, rootdev, lh⟩ w k ∧ lh.n = 0 ∧
      w.issued = (redo sb.logstart sb.nlog).recoveryWrites d (clearHead (d sb.logstart)) ∧
      w.disk = applyWrites d
        ((redo sb.logstart sb.nlog).recoveryWrites d (clearHead (d sb.logstart))) ∧
      w.data = w.disk ∧ (∀ n, w.held n = false) ∧
      ∀ n, w.refs n = if ∃ i < (redo sb.logstart sb.nlog).pending d,
        (redo sb.logstart sb.nlog).homeOf d i = n then 2 ^ 32 - 1 else 0 := by
  have hdev : rootdev ≠ 0 := by decide
  set v : View Block := ⟨d, d, fun _ => 0, fun _ => false, []⟩ with hv
  set log : Log := ⟨sb.logstart, sb.nlog, 0, false, rootdev, ⟨0, fun _ => 0⟩⟩ with hlog
  have hshows : Shows p log.dev log v ⟨binit d fun _ => 0, log⟩ :=
    ⟨rfl, repr_binit p hdev d _⟩
  have hidle : v.Idle := fun n => ⟨rfl, by simp [hv]⟩
  have hrecover := returns_recoverFromLog hshows hbuf hvalid hidle (fun _ => rfl) rfl
  have hinit : initlog p rootdev sb (powerOn d) = recoverFromLog p ⟨binit d fun _ => 0, log⟩ := by
    rw [initlog_eq, powerOn]
  obtain ⟨a, k, hk, w, lh, h₁, h₂, h₃, h₄, h₅, h₆, h₇⟩ := returns_iff.mp hrecover
  rw [returns_iff]
  exact ⟨a, k, hinit.trans hk, w, lh, h₁, h₂, h₃, h₄, h₅, fun n => by rw [h₆], h₇⟩

/-- A boot that is cut short leaves a prefix of the recovery's writes. -/
theorem cutBoot_eq (p : P) (hbuf : sb.nlog ≤ nbuf) (hvalid : (redo sb.logstart sb.nlog).Valid d)
    (j : Nat) : cutBoot p sb d j = applyWrites d
      (((redo sb.logstart sb.nlog).recoveryWrites d (clearHead (d sb.logstart))).take j) := by
  have hinit := returns_initlog p hbuf hvalid
  obtain ⟨a, k, hk, w, lh, hshows, -, hissued, -⟩ := returns_iff.mp hinit
  simp only [cutBoot, hk]
  rw [hshows.repr.issued, hissued]

theorem durable_cutBoot (p : P) (hbuf : sb.nlog ≤ nbuf)
    (hdur : (redo sb.logstart sb.nlog).Durable d c) (j : Nat) :
    (redo sb.logstart sb.nlog).Durable (cutBoot p sb d j) c := by
  rw [cutBoot_eq p hbuf hdur.valid]
  exact hdur.recovery (headCount_clearHead _) (List.take_prefix _ _)

/-- The state after a boot that finds the log empty. -/
theorem inv_boot {p : P} {w : World P} (hsize : 0 < sb.nlog) (hbuf : sb.nlog ≤ nbuf)
    (hempty : headCount (d sb.logstart) = 0) (hboot : boot p sb d = some w) : Inv sb d w := by
  have hpending : (redo sb.logstart sb.nlog).pending d = 0 := hempty
  have hvalid := RedoLog.valid_of_clear hpending hsize
  have hclear : (redo sb.logstart sb.nlog).count (clearHead (d sb.logstart)) = 0 :=
    headCount_clearHead _
  have hdur : (redo sb.logstart sb.nlog).Durable d d :=
    RedoLog.durable_of_clear hpending hsize fun _ _ => rfl
  have hinit := returns_initlog p hbuf hvalid
  obtain ⟨a, k, hk, v, lh, hshows, hn, hissued, hdisk, hdata, hheld, hrefs⟩ :=
    returns_iff.mp hinit
  simp only [boot, hk, Option.some.injEq] at hboot
  subst hboot
  have hrefs : ∀ n, v.refs n = 0 := by
    intro n
    rw [hrefs, if_neg]
    rintro ⟨i, hi, -⟩
    rw [hpending] at hi
    omega
  have hlogged : lh.logged = ∅ := by simp [Logheader.logged, hn]
  have hcache : Bio.Inv rootdev { (Bio.Sys.init d fun _ => 0 : Sys P Block) with bc := k.bc } :=
    inv_of_repr hshows.repr hdata hrefs hheld (fun _ => rfl) (fun _ => rfl) (fun _ => rfl)
      fun _ _ => rfl
  have hlock : ∀ b q, (k.bc.buf b).lock ≠ some q := by
    intro b q hq
    simp [hshows.repr.unlocked hheld] at hq
  simp only [hshows.log_eq]
  constructor
  · exact hcache
  · rw [hlogged]
    exact ⟨by simp [Bio.Sys.init], by simp⟩
  · rfl
  · rfl
  · rfl
  · rfl
  · rfl
  · exact ⟨by simp only [hn]; exact hsize, fun i hi => by simp [hn] at hi,
      fun i hi => by simp [hn] at hi⟩
  · exact hbuf
  · intro i hi
    simp [hn] at hi
  · intro b q hq
    simp [Bio.Sys.init, hlock] at hq
  · intro q b hq
    simp at hq
  · simp only [hshows.repr.disk, hshows.repr.issued, hissued]
    exact hdisk
  · simp only [hshows.repr.disk, hdisk]
    exact (hdur.recovery_done hclear).1
  · simp
  · intro ws hws
    rw [hshows.repr.issued, hissued] at hws
    exact hdur.recovery hclear hws

/-- Boot and the start of a first operation. -/
theorem solo_boot (p : P) (hbuf : sb.nlog ≤ nbuf) (hvalid : (redo sb.logstart sb.nlog).Valid d) :
    ∃ w₀ w v lh, boot p sb d = some w₀ ∧ Run step Rule w₀ w ∧ Solo p w v ∧
      w.log = ⟨sb.logstart, sb.nlog, 1, false, rootdev, lh⟩ ∧ lh.n = 0 ∧ w.commits = [] ∧
      (∀ b, w.sys.pins b = 0) ∧
      v.issued = (redo sb.logstart sb.nlog).recoveryWrites d (clearHead (d sb.logstart)) ∧
      v.disk = applyWrites d v.issued ∧ v.data = v.disk ∧ (∀ n, v.held n = false) ∧
      ∀ n, v.refs n = if ∃ i < (redo sb.logstart sb.nlog).pending d,
        (redo sb.logstart sb.nlog).homeOf d i = n then 2 ^ 32 - 1 else 0 := by
  have hinit := returns_initlog p hbuf hvalid
  obtain ⟨a, k, hk, v, lh, hshows, hn, hissued, hdisk, hdata, hheld, hrefs⟩ :=
    returns_iff.mp hinit
  have hbegin : Log.beginOp k.log = some ⟨sb.logstart, sb.nlog, 1, false, rootdev, lh⟩ := by
    rw [hshows.log_eq]
    simp [Log.beginOp, hn, maxopblocks, logsize]
  obtain ⟨w₀, hboot, hw₀⟩ : ∃ w₀, boot p sb d = some w₀ ∧
      w₀ = ⟨{ (Bio.Sys.init d fun _ => 0) with bc := k.bc }, k.log, ∅, fun _ => none, []⟩ := by
    simp only [boot, hk]
    exact ⟨_, rfl, rfl⟩
  have hstep : step w₀ (.beginOp p) = some { w₀ with
      log := ⟨sb.logstart, sb.nlog, 1, false, rootdev, lh⟩, active := {p} } := by
    simp [step, hw₀, hbegin]
  refine ⟨w₀, _, v, lh, hboot, Run.refl.snoc (a := .beginOp p) trivial hstep, ?_, rfl, hn,
    by rw [hw₀], by simp [hw₀, Bio.Sys.init], hissued, by rw [hissued, hdisk], hdata, hheld, hrefs⟩
  subst hw₀
  refine ⟨hshows.repr, by simp, rfl, rfl, rfl, by simp [Bio.Sys.init], ?_⟩
  intro b hb
  exact (hb (hshows.repr.unlocked hheld b)).elim

end Booting

/-! ## Crash atomicity -/

/-- After a boot that finds the log empty, operations run and commit without
panicking, in any order and any grouping.  If the machine then stops after any
prefix `ws` of the disk writes, and boots with further stops after any number of
writes, and at last completes a boot, every block outside the log area holds the
contents of the last commit whose header is in `ws`. -/
theorem crash_atomic [DecidableEq P] {p : P} {sb : Superblock} {d : Nat → Block} {w₀ w : World P}
    (hsize : 0 < sb.nlog) (hbuf : sb.nlog ≤ nbuf) (hempty : headCount (d sb.logstart) = 0)
    (hboot : boot p sb d = some w₀) (hrun : Run step Rule w₀ w) :
    (∀ q, q ∈ w.active → w.call q = none → Rule w (.endOp q) →
      ∃ w', step w (.endOp q) = some w') ∧
    ∀ ws, ws <+: w.sys.bc.issued → ∀ cuts : List Nat,
      ∃ k, initlog p rootdev sb (powerOn (cuts.foldl (cutBoot p sb) (applyWrites d ws))) =
          .ok () k ∧
        ∀ b, ¬(redo sb.logstart sb.nlog).Area b →
          k.bc.disk b = lastCommit d w.commits ws.length b := by
  have hinv : Inv sb d w :=
    hrun.invariant (inv_boot hsize hbuf hempty hboot) fun t a t' ht hrule hstep =>
      inv_step ht hrule hstep
  refine ⟨?_, ?_⟩
  · intro q hq hcall hrule
    obtain ⟨w', hstep, -⟩ := hinv.endOp hq hcall hrule
    exact ⟨w', hstep⟩
  · intro ws hws cuts
    -- Every stop leaves the same contents to recover.
    have hdur : (redo sb.logstart sb.nlog).Durable
        (cuts.foldl (cutBoot p sb) (applyWrites d ws)) (lastCommit d w.commits ws.length) := by
      generalize applyWrites d ws = d', hinv.history ws hws = hstart
      clear hws
      induction cuts generalizing d' with
      | nil => exact hstart
      | cons j cuts ih => exact ih _ (durable_cutBoot p hbuf hstart j)
    have hclear : (redo sb.logstart sb.nlog).count
        (clearHead (cuts.foldl (cutBoot p sb) (applyWrites d ws) sb.logstart)) = 0 :=
      headCount_clearHead _
    have hinit := returns_initlog p hbuf hdur.valid
    obtain ⟨⟨⟩, k, hk, v, lh, hshows, -, -, hdisk, -⟩ := returns_iff.mp hinit
    refine ⟨k, hk, ?_⟩
    intro b hb
    obtain ⟨hdone, hdur'⟩ := hdur.recovery_done hclear
    rw [hshows.repr.disk, hdisk]
    exact hdur'.disk_eq hdone hb

/-- The layout that `mkfs` gives to the file system. -/
def mkfsSuperblock : Superblock :=
  ⟨1000, 200, 30, 2, 32, 45⟩

/-- An update of block 50 that has been committed survives every stop. -/
theorem crash_atomic_one_block :
    ∃ w₀ w : World Nat, boot 0 mkfsSuperblock (fun _ _ => 0) = some w₀ ∧
      Run step Rule w₀ w ∧ w.commits.length = 1 ∧
      ∀ cuts : List Nat, ∃ k, initlog 0 rootdev mkfsSuperblock (powerOn
          (cuts.foldl (cutBoot 0 mkfsSuperblock) (applyWrites (fun _ _ => 0) w.sys.bc.issued))) =
            .ok () k ∧ k.bc.disk 50 = fun _ => 1 := by
  have hempty : headCount (fun _ => 0) = 0 := by decide
  have hvalid : (redo mkfsSuperblock.logstart mkfsSuperblock.nlog).Valid fun _ _ => 0 :=
    RedoLog.valid_of_clear hempty (by decide)
  have harea : ¬(redo mkfsSuperblock.logstart mkfsSuperblock.nlog).Area 50 := by
    simp [redo, RedoLog.Area, mkfsSuperblock]
  obtain ⟨w₀, w₁, v, lh, hboot, hrun₁, hsolo, hlog, hn, hcommits, hpins, -, -, hdata, hheld,
    hrefs⟩ := solo_boot 0 (by decide) hvalid
  have hrefs : ∀ n, v.refs n = 0 := by
    intro n
    rw [hrefs, if_neg]
    rintro ⟨i, hi, -⟩
    exact absurd hi (by simp [RedoLog.pending, redo, hempty])
  obtain ⟨w₂, hrun₂, hsolo₂, hlog₂, hcommits₂, hleft⟩ := hsolo.update (n := 50) (S := {50})
    (fun n _ => ⟨hheld n, by rw [hdata]⟩) ⟨by decide, by simp [hrefs]⟩ (by simp) (hheld 50)
    (by rw [hlog]; exact hn)
    (by simp [hlog, logWriteCheck, hn, logsize, mkfsSuperblock, maxopblocks])
    (by norm_num) (by rw [hlog]; exact harea) hpins (fun _ => 1)
  rw [hlog] at hlog₂
  obtain ⟨hfits, hlogged⟩ := fits_single (n := 50) (congrArg Log.lh hlog₂)
    (by rw [hlog₂]; simp [mkfsSuperblock]) (by rw [hlog₂]; exact harea)
  have hother : ∀ n, n ≠ 50 →
      (updated v 50 fun _ => 1).data n = (updated v 50 fun _ => 1).disk n := by
    intro n hne
    simp [updated, hne, hdata]
  have hnext : ∀ n, (updated v 50 fun _ => 1).refs n = if n = 50 then 1 else 0 := by
    intro n
    by_cases hne : n = 50 <;> simp [updated, hne, hrefs, uint]
  have hidle : (updated v 50 fun _ => 1).Idle := by
    intro n
    rw [hnext]
    by_cases hne : n = 50 <;> simp [updated, hne, hheld]
  have hsafe : (updated v 50 fun _ => 1).Safe := by
    intro n hn
    rw [hnext] at hn
    exact ⟨(hidle n).1, hother n (by rintro rfl; simp at hn)⟩
  have hcov : Covers w₂.log {50} (updated v 50 fun _ => 1) := by
    refine ⟨by rw [hlogged], by decide, ?_, ?_⟩
    · rw [hlog₂]
      simpa using harea
    · intro n hn
      rw [hnext] at hn
      simpa using hn
  obtain ⟨w, hs, cs, hrun₃, -, -, hissued, -, hpoint⟩ := hsolo₂.endOp
    (by rw [hlog₂]) (by rw [hlog₂]) (by rw [hlog₂]) (by rw [hlog₂]; simp) hfits hsafe hidle hcov
    (fun n hn => hother n (by simpa [hlogged] using hn))
  have hrun := (hrun₁.trans hrun₂).trans hrun₃
  rw [hcommits₂, hcommits, List.nil_append] at hpoint
  refine ⟨w₀, w, hboot, hrun, by rw [hpoint]; rfl, ?_⟩
  intro cuts
  obtain ⟨k, hk, hdisk⟩ := (crash_atomic (by decide) (by decide) hempty hboot hrun).2
    w.sys.bc.issued List.prefix_rfl cuts
  refine ⟨k, hk, ?_⟩
  rw [hdisk 50 harea, hpoint, hissued, lastCommit]
  simp [Sys.content, hleft]

/-! ## A lost update -/

/-- A disk whose log holds a committed transaction of 29 zero blocks. -/
def dirtyDisk : Nat → Block :=
  update (fun _ _ => 0) 2 (encodeHead ⟨29, fun i => 50 + i⟩ fun _ => 0)

private theorem pending_dirtyDisk : (redo 2 30).pending dirtyDisk = 29 := by
  simp [RedoLog.pending, redo, dirtyDisk, headCount_encodeHead, uint]

private theorem homeOf_dirtyDisk {i : Nat} (hi : i < 29) :
    (redo 2 30).homeOf dirtyDisk i = 50 + i := by
  simp only [RedoLog.homeOf, redo, dirtyDisk, update_self]
  rw [headBlock_encodeHead _ hi, uint_of_lt (by simp only; omega)]

private theorem valid_dirtyDisk : (redo 2 30).Valid dirtyDisk := by
  constructor
  · rw [pending_dirtyDisk]
    decide
  · intro i hi j hj heq
    rw [pending_dirtyDisk] at hi hj
    rw [homeOf_dirtyDisk hi, homeOf_dirtyDisk hj] at heq
    omega
  · intro i hi
    rw [pending_dirtyDisk] at hi
    rw [homeOf_dirtyDisk hi]
    simp only [redo, RedoLog.Area]
    omega

/-- Recovery leaves the 29 home blocks with one reference less than none. -/
private theorem dirty_home_iff (n : Nat) :
    (∃ i < (redo 2 30).pending dirtyDisk, (redo 2 30).homeOf dirtyDisk i = n) ↔
      n ∈ Finset.Icc 50 78 := by
  rw [pending_dirtyDisk, Finset.mem_Icc]
  constructor
  · rintro ⟨i, hi, rfl⟩
    rw [homeOf_dirtyDisk hi]
    omega
  · intro hn
    refine ⟨n - 50, by omega, ?_⟩
    rw [homeOf_dirtyDisk (by omega)]
    omega

private theorem recovered_dirtyDisk : applyWrites dirtyDisk
    ((redo 2 30).recoveryWrites dirtyDisk (clearHead (dirtyDisk 2))) 50 = fun _ => 0 := by
  have hdur : (redo 2 30).Durable dirtyDisk ((redo 2 30).recovered dirtyDisk) :=
    ⟨valid_dirtyDisk, fun _ _ => rfl⟩
  obtain ⟨hdone, hdur'⟩ := hdur.recovery_done (headCount_clearHead (dirtyDisk 2))
  have hhome := valid_dirtyDisk.recovered_home (i := 0) (by rw [pending_dirtyDisk]; decide)
  rw [homeOf_dirtyDisk (by decide)] at hhome
  rw [hdur'.disk_eq hdone (by simp [redo, RedoLog.Area]), hhome]
  simp [dirtyDisk, redo]

/-- The view of process 0 once it has changed block 50 and released all blocks:
the update is gone. -/
private theorem view_evicted {v : View Block} (hdata : v.data = v.disk)
    (hheld : ∀ n, v.held n = false)
    (hrefs : ∀ n, v.refs n = if n ∈ Finset.Icc 50 78 then 2 ^ 32 - 1 else 0) (y : Block) :
    ((((updated (v.bread 100) 50 y).modify 50 (v.disk 50)).bread 101).brelse 101).brelse 100 =
      { v with refs := update v.refs 50 0 } := by
  have h50 : v.refs 50 = 2 ^ 32 - 1 := by simp [hrefs]
  have h100 : v.refs 100 = 0 := by simp [hrefs]
  have h101 : v.refs 101 = 0 := by simp [hrefs]
  clear hrefs
  simp only [View.brelse, View.bread, View.modify, updated]
  ext1
  · simp only [update_idem, ← hdata, update_eq_self]
  · rfl
  · funext n
    by_cases hn : n = 100
    · simp [hn, h100, uint]
    · by_cases hn' : n = 101
      · simp [hn', h101, uint]
      · by_cases hn'' : n = 50 <;> simp [hn, hn', hn'', h50, uint]
  · funext n
    by_cases hn : n = 100
    · simp [hn, hheld]
    · by_cases hn' : n = 101
      · simp [hn', hheld]
      · by_cases hn'' : n = 50 <;> simp [hn, hn', hn'', hheld]
  · rfl

/-- A first operation after the recovery of `dirtyDisk` changes block 50 and logs
it.  While it holds block 100, its `bread` of block 101 takes the buffer of block
50, whose reference count has wrapped around to 0. -/
private theorem run_dirtyDisk (y : Block) (hy : y ≠ fun _ => 0) :
    ∃ w₀ w v block, boot 0 mkfsSuperblock dirtyDisk = some w₀ ∧ Run step Rule w₀ w ∧
      Solo 0 w v ∧ w.log = ⟨2, 30, 1, false, rootdev, ⟨1, update block 0 50⟩⟩ ∧
      w.commits = [] ∧ w.sys.left rootdev 50 = some y ∧ v.disk = applyWrites dirtyDisk v.issued ∧
      v.disk 50 = (fun _ => 0) ∧ v.data = v.disk ∧ v.Idle ∧
      ∀ n, v.refs n ≠ 0 → n ∈ Finset.Icc 50 78 := by
  have hvalid : (redo mkfsSuperblock.logstart mkfsSuperblock.nlog).Valid dirtyDisk :=
    valid_dirtyDisk
  obtain ⟨w₀, w₁, v, lh, hboot, hrun₁, h₁, hlog₁, hn, hcommits₁, hpins, hissued, hdisk, hdata,
    hheld, hrefs⟩ := solo_boot 0 (by decide) hvalid
  have hrefs : ∀ n, v.refs n = if n ∈ Finset.Icc 50 78 then 2 ^ 32 - 1 else 0 := by
    intro n
    rw [hrefs]
    exact if_congr (dirty_home_iff n) rfl rfl
  have hdisk50 : v.disk 50 = fun _ => 0 := by
    rw [hdisk, hissued]
    exact recovered_dirtyDisk
  have hsafe : v.Safe := fun n _ => ⟨hheld n, by rw [hdata]⟩
  have hroom : v.Room (insert 100 (Finset.Icc 50 78)) := by
    refine ⟨by decide, ?_⟩
    intro n hn
    rw [hrefs] at hn
    by_contra hnot
    rw [if_neg fun hmem => hnot (Finset.mem_insert_of_mem hmem)] at hn
    exact hn rfl
  -- Block 100 takes the last buffer that recovery has left unreferenced.
  obtain ⟨w₂, hrun₂, hsame₂, h₂⟩ := h₁.bread (n := 100) hsafe hroom (by simp) (hheld 100)
  have hlog₂ := hsame₂.log.trans hlog₁
  obtain ⟨w₃, hrun₃, h₃, hlog₃, hcommits₃, hleft₃⟩ := h₂.update (n := 50)
    (hsafe.bread (by simp [hrefs, uint])) (hroom.bread (by simp)) (by simp)
    (by simp [hheld]) (by rw [hlog₂]; exact hn)
    (by simp [hlog₂, logWriteCheck, hn, logsize, mkfsSuperblock, maxopblocks]) (by norm_num)
    (by simp [hlog₂, redo, RedoLog.Area, mkfsSuperblock]) (fun b => by rw [hsame₂.pins, hpins]) y
  have hrefs₃ : ∀ n, (updated (v.bread 100) 50 y).refs n =
      if n = 100 then 1 else if n ∈ Finset.Icc 51 78 then 2 ^ 32 - 1 else 0 := by
    intro n
    simp only [updated, View.bread, update_apply, hrefs, Finset.mem_Icc, uint]
    split_ifs <;> omega
  have hbusy : ∀ n ∈ insert 100 (Finset.Icc 51 78), (updated (v.bread 100) 50 y).refs n ≠ 0 := by
    intro n hn
    rw [hrefs₃]
    rcases Finset.mem_insert.mp hn with rfl | hn
    · simp
    · rw [if_pos hn]
      split_ifs <;> omega
  -- The only unreferenced buffer is now that of block 50.
  obtain ⟨w₄, hrun₄, hsame₄, h₄⟩ := h₃.bread_evict (n := 101) (m := 50)
    (T := insert 100 (Finset.Icc 51 78)) (by decide)
    (by simpa [updated, hdisk50] using hy) (by rw [hrefs₃]; simp)
    (by simp [updated]) (by rw [hrefs₃]; simp) (by decide) hbusy
  obtain ⟨w₅, hrun₅, hsame₅, h₅⟩ := h₄.brelse (n := 101) (by simp)
    (Or.inl (by simp [updated, hdata]))
  obtain ⟨w₆, hrun₆, hsame₆, h₆⟩ := h₅.brelse (n := 100)
    (by simp [updated])
    (Or.inl (by simp [updated, hdata]))
  have hsame : (updated (v.bread 100) 50 y).disk = v.disk := rfl
  rw [hsame, view_evicted hdata hheld hrefs] at h₆
  refine ⟨w₀, w₆, _, lh.block, hboot, ?_, h₆, ?_, ?_, ?_, hdisk, hdisk50, hdata, ?_, ?_⟩
  · exact ((((hrun₁.trans hrun₂).trans hrun₃).trans hrun₄).trans hrun₅).trans hrun₆
  · rw [hsame₆.log, hsame₅.log, hsame₄.log, hlog₃, hlog₂]
    rfl
  · rw [hsame₆.commits, hsame₅.commits, hsame₄.commits, hcommits₃, hsame₂.commits, hcommits₁]
  · rw [hsame₆.left, hsame₅.left, hsame₄.left, hleft₃]
  · intro n
    refine ⟨hheld n, ?_⟩
    simp only [update_apply, hrefs]
    split_ifs <;> omega
  · intro n hn
    by_contra hnot
    simp [update_apply, hrefs, hnot] at hn

/-- After a boot that recovers a transaction, a committed update can be lost: the
machine stops when the commit is complete, and the next boot does not bring the
update back. -/
theorem crash_loses_update :
    ∃ w₀ w : World Nat, boot 0 mkfsSuperblock dirtyDisk = some w₀ ∧ Run step Rule w₀ w ∧
      ∃ ws, ws <+: w.sys.bc.issued ∧
        ¬∃ k, initlog 0 rootdev mkfsSuperblock (powerOn (applyWrites dirtyDisk ws)) = .ok () k ∧
          ∀ b, ¬(redo 2 30).Area b → k.bc.disk b = lastCommit dirtyDisk w.commits ws.length b := by
  have hone : (fun _ => 1 : Block) ≠ fun _ => 0 := fun h => absurd (congrFun h 0) (by decide)
  have harea : ¬(redo 2 30).Area 50 := by simp [redo, RedoLog.Area]
  obtain ⟨w₀, w₁, v, block, hboot, hrun, hsolo, hlog, hcommits, hleft, hdisk, hdisk50, hdata,
    hidle, hrefs⟩ := run_dirtyDisk (fun _ => 1) hone
  obtain ⟨hfits, hlogged⟩ := fits_single (congrArg Log.lh hlog) (by simp [hlog])
    (by rw [hlog]; exact harea)
  have hcov : Covers w₁.log (Finset.Icc 50 78) v := by
    refine ⟨by rw [hlogged]; decide, by decide, ?_, hrefs⟩
    intro n hn
    rw [Finset.mem_Icc] at hn
    simp only [hlog, redo, RedoLog.Area]
    omega
  obtain ⟨w, hs, cs, hrun', hhs, hcs, hissued', hdisk', hpoint⟩ := hsolo.endOp (by rw [hlog])
    (by rw [hlog]) (by rw [hlog]) (by rw [hlog]; simp) hfits
    (fun n _ => ⟨(hidle n).1, by rw [hdata]⟩) hidle hcov (fun n _ => by rw [hdata])
  refine ⟨w₀, w, hboot, hrun.trans hrun', w.sys.bc.issued, List.prefix_rfl, ?_⟩
  rintro ⟨k, hk, hrecovered⟩
  have hstop : applyWrites dirtyDisk w.sys.bc.issued = w.sys.bc.disk := by
    rw [hissued', applyWrites_append, ← hdisk, hdisk']
  have hempty : headCount (w.sys.bc.disk 2) = 0 := by
    simp [hdisk', hhs, hcs, hlog, RedoLog.commitWrites, RedoLog.logWrites,
      RedoLog.installWrites, redo, headCount_clearHead]
  have hlost : w.sys.bc.disk 50 = fun _ => 0 := by
    simp [hdisk', hhs, hcs, hlog, RedoLog.commitWrites, RedoLog.logWrites,
      RedoLog.installWrites, redo, hdata, hdisk50]
  have hvalid : (redo mkfsSuperblock.logstart mkfsSuperblock.nlog).Valid w.sys.bc.disk :=
    RedoLog.valid_of_clear hempty (by decide)
  have hinit := returns_initlog 0 (by decide) hvalid
  obtain ⟨a, k', hk', v', lh, hshows, -, -, hdisk'', -⟩ := returns_iff.mp hinit
  rw [hstop, hk'] at hk
  cases hk
  have hfound := hrecovered 50 harea
  rw [hpoint, hcommits] at hfound
  simp [lastCommit, hissued', Sys.content, hleft, hshows.repr.disk, hdisk'',
    RedoLog.recoveryWrites, RedoLog.pending, redo, mkfsSuperblock, hempty, hlost] at hfound
  exact hone hfound.symm

end Crash
end Xv6
