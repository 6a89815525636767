import Mathlib.Tactic
import Xv6.Log.World

/-!
# A single operation

While one process runs an operation alone, its calls of `bread`, `log_write` and
`brelse` are whole runs of the system, and their effect is seen in its view of
the cache.

Main results:

- Theorem {lit}`Solo.bread`, {lit}`Solo.brelse`, {lit}`Solo.logWrite`: the calls as runs.
- Theorem {lit}`Solo.bread_evict`: a `bread` that takes the only free buffer.
-/

namespace Xv6
namespace Crash

open Lib Bio Log Function

variable {P : Type} {p : P} {w : World P} {v : View Block} {n : Nat}

/-- Process `p` is in an operation, no other process is in a call, and the cache
shows `v` to it. -/
structure Solo (p : P) (w : World P) (v : View Block) : Prop where
  repr : Repr p rootdev w.sys.bc v
  active : p ∈ w.active
  call : w.call = fun _ => none
  waiting : w.sys.waiting = fun _ => []
  leaving : w.sys.leaving = fun _ => []
  pins : ∀ b, w.sys.pins b ≤ 1
  ready : ∀ b, (w.sys.bc.buf b).lock ≠ none → w.sys.ready b = true

/-- The parts of the state that calls of the cache leave alone. -/
structure Same (w w' : World P) : Prop where
  log : w'.log = w.log
  active : w'.active = w.active
  commits : w'.commits = w.commits
  left : w'.sys.left = w.sys.left
  pins : w'.sys.pins = w.sys.pins

/-- A call of the cache changes only the cache. -/
theorem Solo.withCache {bc : Bcache P Block} {ready dirty : Nat → Bool} {v' : View Block}
    (h : Solo p w v) (hrepr : Repr p rootdev bc v')
    (hready : ∀ b, (bc.buf b).lock ≠ none → ready b = true) :
    Solo p { w with sys := { w.sys with bc := bc, ready := ready, dirty := dirty } } v' :=
  ⟨hrepr, h.active, h.call, h.waiting, h.leaving, h.pins, hready⟩

/-- A block that the process holds, or that differs from the disk, is cached. -/
theorem exists_tagged {dev : Nat} {s : Bcache P Block} (h : Repr p dev s v)
    (hn : v.held n = true ∨ v.data n ≠ v.disk n) : ∃ b, Tagged s dev b n := by
  by_contra hnone
  push Not at hnone
  obtain ⟨-, hheld, hdata⟩ := h.absent n hnone
  rcases hn with hn | hn
  · simp [hheld] at hn
  · exact hn hdata

/-- A buffer has at most one user. -/
theorem Solo.users_le (h : Solo p w v) (b : Nat) : w.sys.users b ≤ 1 := by
  simp only [Sys.users, h.waiting, h.leaving]
  cases (w.sys.bc.buf b).lock <;> simp

/-- A step of the cache by `p`. -/
theorem Solo.step_cache [DecidableEq P] {a : Bio.Act P Block} {s s' : Sys P Block} (h : Solo p w v)
    (hcaller : caller a = some p) (hstep : Bio.step s a = some s') :
    step { w with sys := s } (.cache a) = some { w with sys := s' } := by
  simp [step, hcaller, h.active, h.call, hstep]

/-- There is always a buffer for `bread`. -/
theorem Solo.rule_bget (h : Solo p w v) : Rule w (.cache (.bget p rootdev n)) := by
  refine ⟨rfl, fun b _ => ?_⟩
  have husers := h.users_le b
  have hpins := h.pins b
  omega

/-- `bread` changes the lock of the buffer it returns and of no other. -/
theorem lock_bread {s s' : Bcache P Block} {b b' : Nat} (hlinked : ∃ l, Linked s l)
    (hread : Bio.bread s p rootdev n = .ok (b, s')) (hne : b' ≠ b) :
    (s'.buf b').lock = (s.buf b').lock := by
  obtain ⟨l, hlinked⟩ := hlinked
  simp only [Bio.bread] at hread
  split at hread
  · cases hread
  next c s₁ hget =>
    have hset : ∃ x, s₁ = s.setBuf c x := by
      rcases (bget_ok hlinked hget).2 with ⟨-, -, hs⟩ | ⟨-, -, hs⟩
      · exact ⟨_, hs⟩
      · exact ⟨_, hs⟩
    obtain ⟨x, rfl⟩ := hset
    simp only [acquiresleep] at hread
    split at hread
    · cases hread
    next s₂ hacq =>
      split at hacq
      · cases hread
        cases hacq
        simp only [breadFill, virtioDiskRw]
        split
        · simp [hne]
        · simp [hne]
      · cases hacq

section Runs

variable [DecidableEq P]

/-- A successful `bread` is a run. -/
theorem Solo.run_bread {b : Nat} {bc : Bcache P Block} {v' : View Block} (h : Solo p w v)
    (hread : Bio.bread w.sys.bc p rootdev n = .ok (b, bc)) (hrepr : Repr p rootdev bc v') :
    ∃ w', Run step Rule w w' ∧ Same w w' ∧ Solo p w' v' := by
  have hlock : ∀ b', b' ≠ b → (bc.buf b').lock = (w.sys.bc.buf b').lock := fun b' =>
    lock_bread h.repr.linked hread
  simp only [Bio.bread] at hread
  split at hread
  · cases hread
  next c bc₁ hget =>
    split at hread
    · cases hread
    next bc₂ hacq =>
      cases hread
      have hwait : w.sys.waiting b = [] := by rw [h.waiting]
      have hheld : (bc₂.buf b).lock = some p := by
        simp only [acquiresleep] at hacq
        split at hacq
        · cases hacq
          simp
        · cases hacq
      refine ⟨{ w with sys := { w.sys with
        bc := breadFill bc₂ b
        ready := update w.sys.ready b true
        dirty := update w.sys.dirty b ((bc₂.buf b).valid && w.sys.dirty b) } }, ?_,
        ⟨rfl, rfl, rfl, rfl, rfl⟩, h.withCache hrepr ?_⟩
      · have hstep₁ : Bio.step w.sys (.bget p rootdev n) = some { w.sys with
            bc := bc₁, waiting := update w.sys.waiting b [p] } := by
          simp [Bio.step, hget, hwait]
        have hstep₂ : Bio.step { w.sys with
            bc := bc₁, waiting := update w.sys.waiting b [p] } (.acquiresleep p b) =
              some { w.sys with bc := bc₂, ready := update w.sys.ready b false } := by
          simp [Bio.step, hacq, ← hwait]
        have hstep₃ : Bio.step { w.sys with
            bc := bc₂, ready := update w.sys.ready b false } (.fill p b) =
              some { w.sys with
                bc := breadFill bc₂ b
                ready := update w.sys.ready b true
                dirty := update w.sys.dirty b
                  ((bc₂.buf b).valid && w.sys.dirty b) } := by
          simp [Bio.step, hheld]
        have hrun₁ : Run step Rule w _ := Run.refl.snoc h.rule_bget (h.step_cache rfl hstep₁)
        have hrun₂ : Run step Rule w _ :=
          hrun₁.snoc (show Rule _ (.cache (.acquiresleep p b)) from trivial)
            (h.step_cache rfl hstep₂)
        exact hrun₂.snoc (a := .cache (.fill p b)) trivial (h.step_cache rfl hstep₃)
      · intro b' hb'
        by_cases heq : b' = b
        · simp [heq]
        · rw [update_of_ne heq]
          exact h.ready b' (by rwa [hlock b' heq] at hb')

/-- `bread` of a block that the process does not hold. -/
theorem Solo.bread {S : Finset Nat} (h : Solo p w v) (hsafe : v.Safe) (hroom : v.Room S)
    (hn : n ∈ S) (hheld : v.held n = false) :
    ∃ w', Run step Rule w w' ∧ Same w w' ∧ Solo p w' (v.bread n) := by
  obtain ⟨b, bc, hread, hrepr, -⟩ := h.repr.bread hsafe hroom hn hheld
  exact h.run_bread hread hrepr

/-- `bread` of another block takes the only unreferenced buffer and drops the
contents of its block. -/
theorem Solo.bread_evict {T : Finset Nat} {m : Nat} (h : Solo p w v) (hne : n ≠ m)
    (hdirty : v.data m ≠ v.disk m) (hm : v.refs m = 0) (hheld : v.held m = false)
    (hn : v.refs n = 0) (hcard : nbuf ≤ T.card + 1) (hrefs : ∀ n ∈ T, v.refs n ≠ 0) :
    ∃ w', Run step Rule w w' ∧ Same w w' ∧ Solo p w' ((v.modify m (v.disk m)).bread n) := by
  obtain ⟨b, htag⟩ := exists_tagged h.repr (Or.inr hdirty)
  have hzero : (w.sys.bc.buf b).refcnt = 0 := (h.repr.cached b m htag).refcnt.trans hm
  have honly : ∀ b' < nbuf, (w.sys.bc.buf b').refcnt = 0 → b' = b := fun b' hb' hzero' =>
    h.repr.unique_unreferenced hcard hrefs hb' htag.1 hzero' hzero
  have hmiss : ∀ b', ¬Tagged w.sys.bc rootdev b' n := by
    intro b' htag'
    have heq := honly b' htag'.1 ((h.repr.cached b' n htag').refcnt.trans hn)
    rw [heq] at htag'
    exact hne (htag'.2.2.symm.trans htag.2.2)
  obtain ⟨bc, hread, hrepr, -⟩ := h.repr.bread_evict htag hm hheld hmiss honly
  exact h.run_bread hread hrepr

/-- Changing a held block in place. -/
theorem Solo.modify (h : Solo p w v) (hheld : v.held n = true) (y : Block) :
    ∃ w', Run step Rule w w' ∧ Solo p w' (v.modify n y) ∧ w'.log = w.log ∧
      w'.active = w.active ∧ w'.commits = w.commits ∧ w'.sys.pins = w.sys.pins ∧
      w'.sys.left rootdev n = some y := by
  obtain ⟨b, htag⟩ := exists_tagged h.repr (Or.inl hheld)
  obtain ⟨hlock, -, -⟩ := h.repr.held_buf htag hheld
  have hready : w.sys.ready b = true := h.ready b (by simp [hlock])
  set s : Sys P Block := { w.sys with
    bc := Bio.modify w.sys.bc b y
    left := update w.sys.left rootdev
      (update (w.sys.left rootdev) n (some y))
    dirty := update w.sys.dirty b true } with hs
  have hstep : Bio.step w.sys (.modify p b y) = some s := by
    simp [Bio.step, hlock, hready, htag.2.1, htag.2.2, hs]
  refine ⟨{ w with sys := s },
    Run.refl.snoc (a := .cache (.modify p b y)) trivial (h.step_cache rfl hstep), ?_, rfl, rfl,
    rfl, rfl, by simp [hs]⟩
  refine ⟨h.repr.modify htag hheld y, h.active, h.call, h.waiting, h.leaving, h.pins, ?_⟩
  intro b' hb'
  apply h.ready b'
  by_cases heq : b' = b
  · rw [heq, hlock]
    simp
  · simpa [hs, Bio.modify, heq] using hb'

/-- `log_write` of a held block that is not logged yet. -/
theorem Solo.logWrite (h : Solo p w v) (hheld : v.held n = true) (hnew : n ∉ w.log.lh.logged)
    (hcheck : logWriteCheck w.log = .ok ()) (hsmall : n < 2 ^ 32)
    (harea : ¬(redo w.log.start w.log.size).Area n) (hpins : ∀ b, w.sys.pins b = 0) :
    ∃ w', Run step Rule w w' ∧ Solo p w' (v.bpin n) ∧
      w'.log = { w.log with
        lh := ⟨w.log.lh.n + 1, update w.log.lh.block w.log.lh.n n⟩ } ∧
      w'.active = w.active ∧ w'.commits = w.commits ∧ w'.sys.left = w.sys.left := by
  obtain ⟨b, htag⟩ := exists_tagged h.repr (Or.inl hheld)
  obtain ⟨hlock, -, -⟩ := h.repr.held_buf htag hheld
  have hready : w.sys.ready b = true := h.ready b (by simp [hlock])
  have hinsert : logWriteInsert w.log.lh n =
      (⟨w.log.lh.n + 1, update w.log.lh.block w.log.lh.n n⟩, true) := by
    rcases logWriteInsert_cases w.log.lh n with ⟨hold, -⟩ | ⟨-, heq⟩
    · exact (hnew hold).elim
    · exact heq
  set s : Sys P Block := { w.sys with
    bc := Bio.bpin w.sys.bc b, pins := update w.sys.pins b (w.sys.pins b + 1) } with hs
  set w₁ : World P := { w with call := update w.call p (some b) } with hw₁
  have hstep₁ : step w (.logWrite p b) = some w₁ := by
    simp [step, h.active, h.call, hlock, hready, hcheck, hw₁]
  have hstep₂ : step w₁ (.insert p) = some { w with
      sys := s
      log := { w.log with
        lh := ⟨w.log.lh.n + 1, update w.log.lh.block w.log.lh.n n⟩ } } := by
    simp [step, hw₁, htag.2.2, hinsert, Bio.step, htag.1, hs, h.call]
  have hrule₁ : Rule w (.logWrite p b) := by
    simp only [Rule, htag.2.2]
    exact ⟨hsmall, harea⟩
  have hrule₂ : Rule w₁ (.insert p) := by
    intro b' hb'
    have husers := h.users_le b'
    have hroom : w.log.lh.n < logsize ∧ w.log.lh.n < w.log.size - 1 := by
      simp only [logWriteCheck] at hcheck
      split at hcheck
      · cases hcheck
      · omega
    refine ⟨Or.inr hroom, ?_⟩
    simp only [hw₁, hpins]
    omega
  refine ⟨_, (Run.refl.snoc hrule₁ hstep₁).snoc hrule₂ hstep₂, ?_, rfl, rfl, rfl, rfl⟩
  refine ⟨h.repr.bpin htag, h.active, h.call, h.waiting, h.leaving, ?_, ?_⟩
  · intro b'
    by_cases heq : b' = b <;> simp [hs, heq, hpins]
  · intro b' hb'
    apply h.ready b'
    by_cases heq : b' = b
    · rw [heq, hlock]
      simp
    · simpa [hs, Bio.bpin, heq] using hb'

/-- A successful `brelse` is a run. -/
theorem Solo.brelse (h : Solo p w v) (hheld : v.held n = true)
    (hclean : v.data n = v.disk n ∨ n ∈ w.log.lh.logged) :
    ∃ w', Run step Rule w w' ∧ Same w w' ∧ Solo p w' (v.brelse n) := by
  obtain ⟨b, htag⟩ := exists_tagged h.repr (Or.inl hheld)
  obtain ⟨hlock, -, hdata⟩ := h.repr.held_buf htag hheld
  obtain ⟨bc, hrel, hrepr, -⟩ := h.repr.brelse htag hheld
  have hready : w.sys.ready b = true := h.ready b (by simp [hlock])
  simp only [Bio.brelse, brelseUnlock, if_pos hlock, Except.ok.injEq] at hrel
  subst hrel
  have hleave : w.sys.leaving b = [] := by rw [h.leaving]
  set bc := w.sys.bc.setBuf b { w.sys.bc.buf b with lock := none } with hbc
  have hstep₁ : Bio.step w.sys (.brelse p b) = some { w.sys with
      bc := bc, leaving := update w.sys.leaving b [p] } := by
    simp [Bio.step, hready, brelseUnlock, hlock, hleave, hbc]
  have hstep₂ : Bio.step { w.sys with
      bc := bc, leaving := update w.sys.leaving b [p] } (.drop p b) =
        some { w.sys with
          bc := brelseDrop bc b, ready := w.sys.ready, dirty := w.sys.dirty } := by
    simp [Bio.step, ← hleave]
  have hrule : Rule w (.cache (.brelse p b)) := by
    rcases hclean with hclean | hlogged
    · left
      rw [Sys.Clean, hdata, htag.2.2, hclean, h.repr.disk]
    · right
      rwa [htag.2.2]
  have hrun : Run step Rule w _ := Run.refl.snoc hrule (h.step_cache rfl hstep₁)
  refine ⟨_, hrun.snoc (a := .cache (.drop p b)) trivial (h.step_cache rfl hstep₂),
    ⟨rfl, rfl, rfl, rfl, rfl⟩, h.withCache hrepr ?_⟩
  intro b' hb'
  apply h.ready b'
  intro hnone
  apply hb'
  rw [brelseDrop_buf, hbc]
  by_cases heq : b' = b
  · simp [heq]
  · simp [heq, hnone]

/-- The view after a logged update: the block has one more reference, its pin. -/
def updated (v : View Block) (n : Nat) (y : Block) : View Block :=
  { v with
    data := update v.data n y
    refs := update v.refs n (uint (v.refs n + 1))
    held := update v.held n false }

/-- The calls with which a block is updated. -/
theorem updated_eq (v : View Block) (n : Nat) (y : Block) :
    (((v.bread n).modify n y).bpin n).brelse n = updated v n y := by
  have hcount : uint (uint (uint (v.refs n + 1) + 1) + (2 ^ 32 - 1)) = uint (v.refs n + 1) := by
    simp only [uint]
    omega
  simp only [updated, View.brelse, View.bpin, View.modify, View.bread, update_idem,
    update_self, hcount]

/-- The first update of a transaction: read a block, change it, log it and
release it. -/
theorem Solo.update {S : Finset Nat} (h : Solo p w v) (hsafe : v.Safe) (hroom : v.Room S)
    (hn : n ∈ S) (hheld : v.held n = false) (hempty : w.log.lh.n = 0)
    (hcheck : logWriteCheck w.log = .ok ()) (hsmall : n < 2 ^ 32)
    (harea : ¬(redo w.log.start w.log.size).Area n) (hpins : ∀ b, w.sys.pins b = 0) (y : Block) :
    ∃ w', Run step Rule w w' ∧ Solo p w' (updated v n y) ∧
      w'.log = { w.log with lh := ⟨1, update w.log.lh.block 0 n⟩ } ∧
      w'.commits = w.commits ∧ w'.sys.left rootdev n = some y := by
  obtain ⟨w₁, hrun₁, hsame₁, h₁⟩ := h.bread hsafe hroom hn hheld
  obtain ⟨w₂, hrun₂, h₂, hlog₂, -, hcommits₂, hpins₂, hleft₂⟩ :=
    h₁.modify (n := n) (by simp) y
  have hlog : w₂.log = w.log := hlog₂.trans hsame₁.log
  have hnew : n ∉ w₂.log.lh.logged := by simp [hlog, Logheader.logged, hempty]
  obtain ⟨w₃, hrun₃, h₃, hlog₃, -, hcommits₃, hleft₃⟩ := h₂.logWrite (n := n)
    (by simp) hnew (by rw [hlog, hcheck]) hsmall (by rwa [hlog])
    (fun b => by rw [hpins₂, hsame₁.pins, hpins])
  rw [hlog, hempty] at hlog₃
  have hlogged : n ∈ w₃.log.lh.logged := by
    rw [hlog₃]
    exact Logheader.mem_logged.mpr ⟨0, by simp, by simp⟩
  obtain ⟨w₄, hrun₄, hsame₄, h₄⟩ := h₃.brelse (n := n)
    (by simp) (Or.inr hlogged)
  rw [updated_eq] at h₄
  refine ⟨w₄, ((hrun₁.trans hrun₂).trans hrun₃).trans hrun₄, h₄, ?_, ?_, ?_⟩
  · rw [hsame₄.log, hlog₃]
  · rw [hsame₄.commits, hcommits₃, hcommits₂, hsame₁.commits]
  · rw [hsame₄.left, hleft₃, hleft₂]

/-- A log that holds one block. -/
theorem fits_single {log : Log} {block : Nat → Nat}
    (hlh : log.lh = ⟨1, update block 0 n⟩) (hsize : 1 < log.size)
    (harea : ¬(redo log.start log.size).Area n) : Fits log ∧ log.lh.logged = {n} := by
  refine ⟨⟨by rw [hlh]; exact hsize, ?_, ?_⟩, by rw [hlh]; simp [Logheader.logged]⟩
  · rw [hlh]
    intro i hi j hj _
    simp only at hi hj
    omega
  · intro i hi
    rw [hlh] at hi ⊢
    obtain rfl : i = 0 := by simpa using hi
    simpa using harea

/-- The last `end_op` commits a nonempty group. -/
theorem Solo.endOp {T : Finset Nat} (h : Solo p w v) (hdev : w.log.dev = rootdev)
    (hidlelog : w.log.committing = false) (hlast : w.log.outstanding = 1) (hn : 0 < w.log.lh.n)
    (hfits : Fits w.log) (hsafe : v.Safe) (hidle : v.Idle) (hcov : Covers w.log T v)
    (hclean : ∀ n, n ∉ w.log.lh.logged → v.data n = v.disk n) :
    ∃ w' hs cs, Run step Rule w w' ∧
      hs = (redo w.log.start w.log.size).commitWrites w.log.lh.n w.log.lh.block v.data
        (encodeHead w.log.lh (v.data w.log.start)) ∧
      cs = (redo w.log.start w.log.size).installWrites w.log.lh.n w.log.lh.block v.data
        (clearHead (encodeHead w.log.lh (v.data w.log.start))) ∧
      w'.sys.bc.issued = v.issued ++ (hs ++ cs) ∧
      w'.sys.bc.disk = applyWrites v.disk (hs ++ cs) ∧
      w'.commits = w.commits ++ [((v.issued ++ hs).length, w.sys.content rootdev)] := by
  set log : Log := { w.log with outstanding := 0, committing := true } with hlog
  have hend : Log.endOp w.log = .ok (log, true) := by
    simp [Log.endOp, hidlelog, hlast, hlog]
  have hshows : Shows p log.dev log v ⟨w.sys.bc, log⟩ := ⟨rfl, by rw [hdev]; exact h.repr⟩
  have hfits : Fits log := { hfits with }
  have hcov : Covers log T v := { hcov with }
  have hhead := returns_commitHead hshows hfits hsafe hidle hcov
  have hcommit := returns_commit hshows hn hfits hsafe hidle hcov hclean
  obtain ⟨a, k₁, hk₁, v₁, hshows₁, -, -, -, hissued₁, -⟩ := returns_iff.mp hhead
  obtain ⟨⟨⟩, k, hk, v₂, hshows₂, hissued₂, hdisk₂, -⟩ := returns_iff.mp hcommit
  have hpoint : commitPoint p ⟨w.sys.bc, log⟩ = v₁.issued.length := by
    simp only [commitPoint, hk₁, hshows₁.repr.issued]
  have hrule : Rule w (.endOp p) := by
    intro b
    rw [h.waiting, h.leaving, h.repr.unlocked (fun n => (hidle n).1)]
    simp
  have hne : log.lh.n ≠ 0 := Nat.pos_iff_ne_zero.mp hn
  have hstep : step w (.endOp p) = w.commit p log := by
    simp [step, h.active, h.call, hend]
  have hsome : ∃ w', w.commit p log = some w' ∧ w'.sys.bc = k.bc ∧
      w'.commits = w.commits ++ [(v₁.issued.length, w.sys.content rootdev)] := by
    simp only [World.commit, hk, hpoint, if_neg hne]
    exact ⟨_, rfl, rfl, rfl⟩
  obtain ⟨w', hw', hbc, hcommits⟩ := hsome
  refine ⟨w', _, _, Run.refl.snoc hrule (hstep.trans hw'), rfl, rfl, ?_, ?_, ?_⟩
  · rw [hbc, hshows₂.repr.issued, hissued₂]
  · rw [hbc, hshows₂.repr.disk, hdisk₂]
  · rw [hcommits, hissued₁]

end Runs

end Crash
end Xv6
