import Mathlib.Tactic
import Xv6.Bio.Quiescent
import Xv6.Lib.Run
import Xv6.Log.Commit

/-!
# File system operations over the log

Operations of any number of processes run between `begin_op` and `end_op`, change
blocks through the buffer cache and record them by `log_write`.  The last
`end_op` commits the group.  The state keeps the history of disk writes, so that
a stop of the machine is a prefix of that history.

Main results:

- Theorem {lit}`inv_step`: the invariant that ties the cache, the pins, the log
  and the history of the disk together is kept by every step.
- Theorem {lit}`Inv.endOp`: `end_op` never panics, and a commit is recorded in the
  history as a whole.
-/

namespace Xv6
namespace Crash

open Lib Bio Log Function

variable {P : Type}

/-! ## The kernel as a system -/

/-- The kernel.  `call p` is the buffer of a `log_write` that has passed its
checks and waits for the log's lock.  `commits` records every commit of a
nonempty group: the number of disk writes issued when its header had been
written, and the contents of all blocks at that time. -/
structure World (P : Type) where
  sys : Sys P Block
  log : Log
  active : Finset P
  call : P → Option Nat
  commits : List (Nat × (Nat → Block))

/-- The atomic sections of an operation; `end_op` includes the commit, during
which no other process can run an operation. -/
inductive Act (P : Type) where
  | beginOp (p : P)
  | cache (a : Bio.Act P Block)
  | logWrite (p : P) (b : Nat)
  | insert (p : P)
  | endOp (p : P)

/-- The process that runs a section of `bread`, a modification or `brelse`.
Operations do not call `bwrite`, `bpin` or `bunpin` themselves. -/
def caller : Bio.Act P Block → Option P
  | .bget p _ _ | .acquiresleep p _ | .fill p _ | .modify p _ _ | .brelse p _ | .drop p _ => some p
  | .bwrite _ _ | .bpin _ | .bunpin _ => none

/-- The cache and the log when the machine is switched on.  It is irreducible so
that statements about booting do not compute the boot. -/
@[irreducible]
def powerOn (d : Nat → Block) : Log.Kernel P :=
  ⟨binit d fun _ => 0, ⟨0, 0, 0, false, 0, ⟨0, fun _ => 0⟩⟩⟩

section Semantics

variable [DecidableEq P]

/-- Number of disk writes issued when the header of a commit has been written. -/
def commitPoint (p : P) (k : Log.Kernel P) : Nat :=
  match commitHead p k with
  | .ok _ k' => k'.bc.issued.length
  | .error _ k' => k'.bc.issued.length

/-- `commit` and the end of `end_op`.  Afterwards all contents are on disk, so
the record of modifications and pins starts afresh. -/
def World.commit (w : World P) (p : P) (log : Log) : Option (World P) :=
  match Log.commit p ⟨w.sys.bc, log⟩ with
  | .error _ _ => none
  | .ok _ k => some { w with
      sys := { w.sys with bc := k.bc, pins := fun _ => 0, left := fun _ _ => none }
      log := { k.log with committing := false }
      active := w.active.erase p
      commits := if log.lh.n = 0 then w.commits
        else w.commits ++ [(commitPoint p ⟨w.sys.bc, log⟩, w.sys.content rootdev)] }

/-- One atomic section of one operation.  There is no step where the code panics
or where the process has to sleep. -/
def step (w : World P) : Act P → Option (World P)
  | .beginOp p =>
    if p ∈ w.active then none
    else (Log.beginOp w.log).map fun log => { w with log := log, active := insert p w.active }
  | .cache a =>
    match caller a with
    | some p =>
      if p ∈ w.active ∧ w.call p = none then
        (Bio.step w.sys a).map fun sys => { w with sys := sys }
      else none
    | none => none
  | .logWrite p b =>
    if p ∈ w.active ∧ w.call p = none ∧ (w.sys.bc.buf b).lock = some p ∧ w.sys.ready b = true then
      match logWriteCheck w.log with
      | .ok () => some { w with call := update w.call p (some b) }
      | .error _ => none
    else none
  | .insert p =>
    match w.call p with
    | none => none
    | some b =>
      let inserted := logWriteInsert w.log.lh (w.sys.bc.buf b).blockno
      let w := { w with
        log := { w.log with lh := inserted.1 }, call := update w.call p none }
      if inserted.2 then (Bio.step w.sys (.bpin b)).map fun sys => { w with sys := sys }
      else some w
  | .endOp p =>
    if p ∈ w.active ∧ w.call p = none then
      match Log.endOp w.log with
      | .error _ => none
      | .ok (log, false) => some { w with log := log, active := w.active.erase p }
      | .ok (log, true) => w.commit p log
    else none

/-- Boot: initialize the log, which recovers a committed transaction. -/
def boot (p : P) (sb : Superblock) (d : Nat → Block) : Option (World P) :=
  match initlog p rootdev sb (powerOn d) with
  | .error _ _ => none
  | .ok _ k => some
      { sys := { (Bio.Sys.init d fun _ => 0) with bc := k.bc }
        log := k.log
        active := ∅
        call := fun _ => none
        commits := [] }

/-- The disk after a boot that is cut short after `j` disk writes. -/
def cutBoot (p : P) (sb : Superblock) (d : Nat → Block) (j : Nat) : Nat → Block :=
  match initlog p rootdev sb (powerOn d) with
  | .ok _ k => applyWrites d (k.bc.issued.take j)
  | .error _ k => applyWrites d (k.bc.issued.take j)

end Semantics

/-! ## Well-behaved operations -/

/-- What the operations promise: they use the root device, log every block they
have changed before they release it and no block of the log area, fit the log,
and release their buffers before they end.  A block counts as changed while its
buffer differs from the disk, which takes a `modify` since the buffer was last
read or written ({lit}`Bio.Marked`).  Block numbers are 32-bit numbers. -/
def Rule (w : World P) : Act P → Prop
  | .cache (.bget _ dev _) =>
    dev = rootdev ∧ ∀ b < nbuf, w.sys.users b + w.sys.pins b + 1 < 2 ^ 32
  | .cache (.brelse _ b) =>
    w.sys.Clean b ∨ (w.sys.bc.buf b).blockno ∈ w.log.lh.logged
  | .logWrite _ b => (w.sys.bc.buf b).blockno < 2 ^ 32 ∧
    ¬(redo w.log.start w.log.size).Area (w.sys.bc.buf b).blockno
  | .insert p => ∀ b, w.call p = some b →
    ((w.sys.bc.buf b).blockno ∈ w.log.lh.logged ∨
      (w.log.lh.n < logsize ∧ w.log.lh.n < w.log.size - 1)) ∧
    w.sys.users b + w.sys.pins b + 1 < 2 ^ 32
  | .endOp p => ∀ b, p ∉ w.sys.waiting b ∧ p ∉ w.sys.leaving b ∧ (w.sys.bc.buf b).lock ≠ some p
  | _ => True

/-- The contents at the last commit whose header is among the first `k` writes. -/
def lastCommit (d : Nat → Block) (commits : List (Nat × (Nat → Block))) (k : Nat) :
    Nat → Block :=
  commits.foldl (fun c e => if e.1 ≤ k then e.2 else c) d

/-- The last commit, with one more. -/
theorem lastCommit_append (d : Nat → Block) (commits : List (Nat × (Nat → Block)))
    (e : Nat × (Nat → Block)) (k : Nat) :
    lastCommit d (commits ++ [e]) k = if e.1 ≤ k then e.2 else lastCommit d commits k := by
  simp [lastCommit]

/-- Beyond the last commit point nothing changes any more. -/
theorem lastCommit_stable {d : Nat → Block} {commits : List (Nat × (Nat → Block))} {k k' : Nat}
    (hpoints : ∀ e ∈ commits, e.1 ≤ k) (hle : k ≤ k') :
    lastCommit d commits k' = lastCommit d commits k := by
  induction commits using List.reverseRecOn with
  | nil => rfl
  | append_singleton commits e _ =>
    have he := hpoints e (by simp)
    rw [lastCommit_append, lastCommit_append, if_pos he, if_pos (he.trans hle)]

/-! ## The invariant -/

/-- The kernel between two steps, after a boot from the disk `d`. -/
structure Inv (sb : Superblock) (d : Nat → Block) (w : World P) : Prop where
  cache : Bio.Inv rootdev w.sys
  pinned : PinnedExactly rootdev w.sys w.log.lh.logged
  start : w.log.start = sb.logstart
  size : w.log.size = sb.nlog
  dev : w.log.dev = rootdev
  idle : w.log.committing = false
  count : w.log.outstanding = w.active.card
  fits : Fits w.log
  buffers : w.log.size ≤ nbuf
  small : ∀ i < w.log.lh.n, w.log.lh.block i < 2 ^ 32
  users : ∀ b q, q ∈ w.sys.waiting b ∨ q ∈ w.sys.leaving b ∨ (w.sys.bc.buf b).lock = some q →
    q ∈ w.active
  calls : ∀ q b, w.call q = some b → (w.sys.bc.buf b).lock = some q ∧
    (w.sys.bc.buf b).blockno < 2 ^ 32 ∧
    ¬(redo sb.logstart sb.nlog).Area (w.sys.bc.buf b).blockno
  disk : w.sys.bc.disk = applyWrites d w.sys.bc.issued
  clear : headCount (w.sys.bc.disk sb.logstart) = 0
  points : ∀ e ∈ w.commits, e.1 ≤ w.sys.bc.issued.length
  history : ∀ ws, ws <+: w.sys.bc.issued → (redo sb.logstart sb.nlog).Durable (applyWrites d ws)
    (lastCommit d w.commits ws.length)

/-! ## Steps of the cache -/

section Frame

variable {s s' : Sys P Block} {a : Bio.Act P Block} {p : P}

/-- What the calls of one process leave alone: the disk, the pins, and the locks
and places of all other processes. -/
structure Frame (s s' : Sys P Block) (p : P) : Prop where
  issued : s'.bc.issued = s.bc.issued
  disk : s'.bc.disk = s.bc.disk
  pins : s'.pins = s.pins
  lock : ∀ b q, q ≠ p → ((s'.bc.buf b).lock = some q ↔ (s.bc.buf b).lock = some q)
  waiting : ∀ b q, q ≠ p → (q ∈ s'.waiting b ↔ q ∈ s.waiting b)
  leaving : ∀ b q, q ≠ p → (q ∈ s'.leaving b ↔ q ∈ s.leaving b)

/-- A change of one buffer by its holder or by nobody. -/
theorem lock_setBuf {b b' : Nat} {x : Buf P Block} {q : P}
    (hx : x.lock = some q ↔ (s.bc.buf b).lock = some q) :
    ((s.bc.setBuf b x).buf b').lock = some q ↔ (s.bc.buf b').lock = some q := by
  obtain rfl | heq := eq_or_ne b' b
  · simpa using hx
  · simp [heq]

/-- A list with the same members. -/
theorem mem_update {f : Nat → List P} {b b' : Nat} {l : List P} {q : P}
    (hl : q ∈ l ↔ q ∈ f b) : q ∈ update f b l b' ↔ q ∈ f b' := by
  obtain rfl | heq := eq_or_ne b' b
  · simpa using hl
  · simp [heq]

/-- A step of a process leaves the others alone. -/
theorem frame_step [DecidableEq P] (hlinked : ∃ l, Linked s.bc l) (hcaller : caller a = some p)
    (hstep : Bio.step s a = some s') : Frame s s' p := by
  obtain ⟨l, hlinked⟩ := hlinked
  cases a with
  | bget q dev n =>
    cases hcaller
    simp only [Bio.step] at hstep
    split at hstep
    next b bc hget =>
      cases hstep
      have hset : ∃ x : Buf P Block, bc = s.bc.setBuf b x ∧ x.lock = (s.bc.buf b).lock := by
        rcases (bget_ok hlinked hget).2 with ⟨-, -, rfl⟩ | ⟨-, -, rfl⟩ <;> exact ⟨_, rfl, rfl⟩
      obtain ⟨x, rfl, hx⟩ := hset
      refine ⟨rfl, rfl, rfl, fun b' q _ => lock_setBuf (by rw [hx]), ?_, fun _ _ _ => Iff.rfl⟩
      intro b' q hq
      exact mem_update (by simp [hq])
    · cases hstep
  | acquiresleep q b =>
    cases hcaller
    obtain ⟨-, hlock, rfl⟩ := step_acquiresleep hstep
    refine ⟨rfl, rfl, rfl, ?_, ?_, fun _ _ _ => Iff.rfl⟩
    · intro b' q hq
      exact lock_setBuf (by simp [hlock, hq.symm])
    · intro b' q hq
      exact mem_update (List.mem_erase_of_ne hq)
  | fill q b =>
    cases hcaller
    obtain ⟨-, ⟨⟩⟩ := Option.ite_none_right_eq_some.mp hstep
    refine ⟨?_, ?_, rfl, ?_, fun _ _ _ => Iff.rfl, fun _ _ _ => Iff.rfl⟩
    · simp only [breadFill, virtioDiskRw]
      split <;> simp
    · simp only [breadFill, virtioDiskRw]
      split <;> simp
    · intro b' q _
      simp only [breadFill, virtioDiskRw]
      split
      · exact Iff.rfl
      · by_cases heq : b' = b <;> simp [heq]
  | modify q b data =>
    cases hcaller
    obtain ⟨-, ⟨⟩⟩ := Option.ite_none_right_eq_some.mp hstep
    exact ⟨rfl, rfl, rfl, fun b' q _ => lock_setBuf Iff.rfl, fun _ _ _ => Iff.rfl,
      fun _ _ _ => Iff.rfl⟩
  | brelse q b =>
    cases hcaller
    obtain ⟨hlock, -, rfl⟩ := step_brelse hstep
    refine ⟨rfl, rfl, rfl, ?_, fun _ _ _ => Iff.rfl, ?_⟩
    · intro b' q hq
      exact lock_setBuf (by simp [hlock, hq.symm])
    · intro b' q hq
      exact mem_update (by simp [hq])
  | drop q b =>
    cases hcaller
    obtain ⟨-, ⟨⟩⟩ := Option.ite_none_right_eq_some.mp hstep
    refine ⟨by simp, by simp, rfl, ?_, fun _ _ _ => Iff.rfl, ?_⟩
    · intro b' q _
      simp only [brelseDrop_buf]
      exact lock_setBuf Iff.rfl
    · intro b' q hq
      exact mem_update (List.mem_erase_of_ne hq)
  | bwrite q b => cases hcaller
  | bpin b => cases hcaller
  | bunpin b => cases hcaller

end Frame

/-! ## Preservation -/

section Logging

variable {sb : Superblock} {d : Nat → Block} {w : World P}

/-- The header after `log_write` of a new block. -/
theorem Inv.fits_insert {lh : Logheader} {n : Nat} (hinv : Inv sb d w)
    (hlh : lh = ⟨w.log.lh.n + 1, update w.log.lh.block w.log.lh.n n⟩)
    (hinsert : (logWriteInsert w.log.lh n).1 = lh) (hroom : w.log.lh.n < w.log.size - 1)
    (harea : ¬(redo sb.logstart sb.nlog).Area n) : Fits { w.log with lh := lh } := by
  constructor
  · rw [hlh]
    simp only
    omega
  · rw [← hinsert]
    exact distinct_logWriteInsert n hinv.fits.distinct
  · intro i hi
    subst hlh
    by_cases heq : i = w.log.lh.n
    · subst heq
      simpa [hinv.start, hinv.size] using harea
    · simp only [update_of_ne heq]
      exact hinv.fits.outside i (by simp only at hi; omega)

/-- One more pin, for one more logged block. -/
theorem Inv.pinned_insert {b n : Nat} {s' : Sys P Block} (hinv : Inv sb d w)
    (htag : Tagged w.sys.bc rootdev b n) (hnew : n ∉ w.log.lh.logged)
    (hs' : s' = { w.sys with
      bc := Bio.bpin w.sys.bc b, pins := update w.sys.pins b (w.sys.pins b + 1) }) :
    PinnedExactly rootdev s' (insert n w.log.lh.logged) := by
  obtain ⟨hb, hbdev, rfl⟩ := htag
  have hbuf : ∀ c, (s'.bc.buf c).dev = (w.sys.bc.buf c).dev ∧
      (s'.bc.buf c).blockno = (w.sys.bc.buf c).blockno := by
    intro c
    subst hs'
    by_cases heq : c = b <;> simp [Bio.bpin, heq]
  constructor
  · intro c hc
    rw [(hbuf c).1, (hbuf c).2]
    have hpin := hinv.pinned.pins c hc
    obtain rfl | heq := eq_or_ne c b
    · rw [if_neg (fun h => hnew h.2)] at hpin
      simp [hs', hpin, hbdev]
    · have hpins : s'.pins c = w.sys.pins c := by simp [hs', heq]
      rw [hpins, hpin]
      refine if_congr (and_congr_right fun hcdev => ?_) rfl rfl
      rw [Finset.mem_insert, or_iff_right]
      intro hsame
      exact heq (hinv.cache.uniq c hc b hb (by rw [hcdev]; decide) (by rw [hcdev, hbdev]) hsame)
  · intro n hn
    rcases Finset.mem_insert.mp hn with rfl | hn
    · exact ⟨b, hb, (hbuf b).1.trans hbdev, (hbuf b).2⟩
    · obtain ⟨c, hc, hcdev, hcn⟩ := hinv.pinned.cached n hn
      exact ⟨c, hc, (hbuf c).1.trans hcdev, (hbuf c).2.trans hcn⟩

end Logging

/-! ### Commit -/

section Commit

variable {sb : Superblock} {d : Nat → Block} {w : World P} {p : P}

/-- When the last operation ends, nobody uses the cache. -/
theorem Inv.quiescent (hinv : Inv sb d w) (hlast : w.active = {p}) (hrule : Rule w (.endOp p)) :
    Quiescent w.sys := by
  have hnobody : ∀ b q, ¬(q ∈ w.sys.waiting b ∨ q ∈ w.sys.leaving b ∨
      (w.sys.bc.buf b).lock = some q) := by
    intro b q hq
    have hqp : q = p := by
      have := hinv.users b q hq
      rwa [hlast, Finset.mem_singleton] at this
    subst hqp
    obtain ⟨h₁, h₂, h₃⟩ := hrule b
    rcases hq with hq | hq | hq
    · exact h₁ hq
    · exact h₂ hq
    · exact h₃ hq
  constructor
  · intro b
    exact List.eq_nil_iff_forall_not_mem.mpr fun q hq => hnobody b q (Or.inl hq)
  · intro b
    exact List.eq_nil_iff_forall_not_mem.mpr fun q hq => hnobody b q (Or.inr (Or.inl hq))
  · intro b
    cases hlock : (w.sys.bc.buf b).lock with
    | none => rfl
    | some q => exact (hnobody b q (Or.inr (Or.inr hlock))).elim

/-- The kernel after a commit that issued the writes `ws`. -/
theorem Inv.committed {bc : Bcache P Block} {v : View Block} {log : Log}
    {ws : List (Nat × Block)} {commits : List (Nat × (Nat → Block))} {active : Finset P}
    (hinv : Inv sb d w) (hquiet : Quiescent w.sys) (hrepr : Repr p rootdev bc v)
    (hdata : v.data = v.disk) (hrefs : ∀ n, v.refs n = 0) (hheld : ∀ n, v.held n = false)
    (hissued : v.issued = w.sys.bc.issued ++ ws) (hdisk : v.disk = applyWrites w.sys.bc.disk ws)
    (hclear : headCount (v.disk sb.logstart) = 0)
    (hlog : log = { w.log with
      lh := ⟨0, w.log.lh.block⟩, outstanding := active.card, committing := false })
    (hpoints : ∀ e ∈ commits, e.1 ≤ (w.sys.bc.issued ++ ws).length)
    (hhistory : ∀ us, us <+: w.sys.bc.issued ++ ws →
      (redo sb.logstart sb.nlog).Durable (applyWrites d us) (lastCommit d commits us.length)) :
    Inv sb d { w with
      sys := { w.sys with bc := bc, pins := fun _ => 0, left := fun _ _ => none }
      log := log
      active := active
      commits := commits } := by
  have hcache : Bio.Inv rootdev
      { w.sys with bc := bc, pins := fun _ => 0, left := fun _ _ => none } :=
    inv_of_repr hrepr hdata hrefs hheld hquiet.waiting hquiet.leaving (fun _ => rfl)
      fun _ _ => rfl
  have hlock : ∀ b, (bc.buf b).lock = none := by
    intro b
    by_cases hb : b < nbuf
    · rcases hrepr.spare b hb with hbdev | ⟨-, -, -, hlock⟩
      · simpa [hheld] using (hrepr.cached b _ ⟨hb, hbdev, rfl⟩).lock
      · exact hlock
    · exact hrepr.outside b (by omega)
  have hempty : log.lh.logged = ∅ := by
    simp [hlog, Logheader.logged]
  have hroom := hinv.fits.room
  subst hlog
  constructor
  · exact hcache
  · rw [hempty]
    exact ⟨by simp, by simp⟩
  · exact hinv.start
  · exact hinv.size
  · exact hinv.dev
  · rfl
  · rfl
  · exact ⟨by simp only; omega, fun i hi => by simp at hi, fun i hi => by simp at hi⟩
  · exact hinv.buffers
  · intro i hi
    simp at hi
  · intro b q hq
    simp [hquiet.waiting, hquiet.leaving, hlock] at hq
  · intro q b hq
    obtain ⟨hq, -⟩ := hinv.calls q b hq
    simp [hquiet.lock b] at hq
  · simp only [hrepr.disk, hrepr.issued, hissued, applyWrites_append, ← hinv.disk]
    exact hdisk
  · simp only [hrepr.disk]
    exact hclear
  · simp only [hrepr.issued, hissued]
    exact hpoints
  · simp only [hrepr.issued, hissued]
    exact hhistory

/-- The state in which the last `end_op` starts the commit. -/
theorem Inv.shows {log : Log} (hinv : Inv sb d w) (hquiet : Quiescent w.sys)
    (hdev : log.dev = w.log.dev) :
    Shows p log.dev log (w.sys.view rootdev w.log.lh.logged) ⟨w.sys.bc, log⟩ := by
  refine ⟨rfl, ?_⟩
  rw [hdev, hinv.dev]
  exact hinv.cache.repr (by decide) hquiet hinv.pinned p

/-- The history after a commit. -/
theorem Inv.history_commit {header clear : Block} (hinv : Inv sb d w) (hquiet : Quiescent w.sys)
    (hcount : headCount header = w.log.lh.n)
    (hhome : ∀ i < w.log.lh.n, headBlock header i = w.log.lh.block i)
    (hclear : headCount clear = 0) {us : List (Nat × Block)}
    (hus : us <+: w.sys.bc.issued ++
      ((redo sb.logstart sb.nlog).commitWrites w.log.lh.n w.log.lh.block
        (w.sys.content rootdev) header ++
      (redo sb.logstart sb.nlog).installWrites w.log.lh.n w.log.lh.block
        (w.sys.content rootdev) clear)) :
    (redo sb.logstart sb.nlog).Durable (applyWrites d us) (lastCommit d (w.commits ++
      [(w.sys.bc.issued.length + w.log.lh.n + 1, w.sys.content rootdev)]) us.length) := by
  have hfits := hinv.fits
  have houtside := hfits.outside
  rw [hinv.start, hinv.size] at houtside
  rw [lastCommit_append]
  rcases prefix_append_cases hus with hold | ⟨us', rfl, hus'⟩
  · have hle := hold.length_le
    rw [if_neg (by simp only; omega)]
    exact hinv.history us hold
  · have hsize : w.log.lh.n < (redo sb.logstart sb.nlog).size := by
      have := hfits.room
      rwa [hinv.size] at this
    have hsame : ∀ b, ¬(redo sb.logstart sb.nlog).Area b → (∀ i < w.log.lh.n,
        w.log.lh.block i ≠ b) → w.sys.content rootdev b = w.sys.bc.disk b := by
      intro b _ hnot
      apply hinv.cache.content_of_unpinned hquiet hinv.pinned
      intro hmem
      obtain ⟨i, hi, heq⟩ := Logheader.mem_logged.mp hmem
      exact hnot i hi heq
    rw [applyWrites_append, ← hinv.disk, List.length_append]
    have hempty : (redo sb.logstart sb.nlog).pending w.sys.bc.disk = 0 := hinv.clear
    rcases RedoLog.durable_commit hempty hsize hcount hhome hfits.distinct houtside hsame
        hclear hus' with ⟨hlen, hdur⟩ | ⟨hlen, hdur⟩
    · rw [if_neg (by simp only; omega), lastCommit_stable hinv.points (Nat.le_add_right _ _)]
      -- The disk held the last commit's contents when this commit began.
      have hnow := hinv.history _ (List.prefix_refl _)
      rw [← hinv.disk] at hnow
      exact hdur.congr fun b hb => hnow.disk_eq hempty hb
    · rw [if_pos (by simp only; omega)]
      exact hdur

variable [DecidableEq P]

/-- The commit of a group that has logged something. -/
theorem Inv.commit_group {log : Log} (hinv : Inv sb d w) (hlast : w.active = {p})
    (hquiet : Quiescent w.sys) (hn : w.log.lh.n ≠ 0)
    (hlog : log = { w.log with outstanding := 0, committing := true }) :
    ∃ w', w.commit p log = some w' ∧ Inv sb d w' := by
  set v := w.sys.view rootdev w.log.lh.logged with hv
  have hfits : Fits log := by
    subst hlog
    exact { hinv.fits with }
  have hshows : Shows p log.dev log v ⟨w.sys.bc, log⟩ := hinv.shows hquiet (by rw [hlog])
  have hsafe : v.Safe := hinv.cache.view_safe hquiet hinv.pinned
  have hidle : v.Idle := w.sys.view_idle rootdev w.log.lh.logged
  have hlh : log.lh = w.log.lh := by rw [hlog]
  have hstart : log.start = sb.logstart := by rw [hlog]; exact hinv.start
  have hsize : log.size = sb.nlog := by rw [hlog]; exact hinv.size
  have hdev : log.dev = rootdev := by rw [hlog]; exact hinv.dev
  set header := encodeHead w.log.lh (v.data sb.logstart) with hheader
  have hrefs : ∀ n, v.refs n = if n ∈ log.lh.logged then 1 else 0 := by
    intro n
    simp [hv, Sys.view, hlh]
  have hcov : Covers log log.lh.logged v := by
    apply hfits.covers (by rw [hlog]; exact hinv.buffers)
    intro n hne
    by_contra hnot
    exact hne (by rw [hrefs, if_neg hnot])
  -- Where the header was written.
  have hpoint : commitPoint p ⟨w.sys.bc, log⟩ = w.sys.bc.issued.length + w.log.lh.n + 1 := by
    obtain ⟨a, k, hk, u, hu, -, -, -, hissued, -⟩ :=
      returns_iff.mp (returns_commitHead hshows hfits hsafe hidle hcov)
    simp only [commitPoint, hk]
    rw [hu.repr.issued, hissued]
    simp [RedoLog.commitWrites, RedoLog.logWrites, hlh, hv, Sys.view]
    omega
  obtain ⟨a, k, hk, u, hu, hissued, hdisk, hdata, hheld, hrefs'⟩ :=
    returns_iff.mp (returns_commit hshows (by rw [hlh]; omega) hfits hsafe hidle hcov (by
      intro n hnot
      exact (hsafe n (by rw [hrefs, if_neg hnot])).2))
  have hzero : ∀ n, u.refs n = 0 := by
    intro n
    rw [hrefs' n, hrefs n]
    split
    · decide
    · rfl
  refine ⟨_, by simp only [World.commit, hk]; rfl, ?_⟩
  rw [hstart, hsize, hlh] at hissued hdisk
  have hcount : headCount header = w.log.lh.n := by
    rw [hheader, headCount_encodeHead, uint_of_lt]
    have := hinv.fits.room
    have := hinv.buffers
    have : nbuf < 2 ^ 32 := by decide
    omega
  have hhome : ∀ i < w.log.lh.n, headBlock header i = w.log.lh.block i := by
    intro i hi
    rw [hheader, headBlock_encodeHead _ hi, uint_of_lt (hinv.small i hi)]
  have hclear : (redo sb.logstart sb.nlog).count (clearHead header) = 0 :=
    headCount_clearHead header
  have hrepr := hu.repr
  rw [hdev] at hrepr
  refine hinv.committed hquiet hrepr hdata hzero hheld hissued hdisk ?_ ?_ ?_ ?_
  · rw [hdisk]
    exact RedoLog.pending_commit hclear
  · rw [hu.log_eq, hlog, hlast]
    simp [cleared]
  · intro e he
    rw [hlh, if_neg hn, hpoint] at he
    rcases List.mem_append.mp he with he | he
    · exact (hinv.points e he).trans (by simp)
    · simp only [List.mem_singleton] at he
      subst he
      simp [RedoLog.commitWrites, RedoLog.logWrites]
  · intro us hus
    rw [hlh, if_neg hn, hpoint]
    exact hinv.history_commit hquiet hcount hhome hclear hus

/-- The commit of a group that has logged nothing. -/
theorem Inv.commit_nothing {log : Log} (hinv : Inv sb d w) (hlast : w.active = {p})
    (hquiet : Quiescent w.sys) (hn : w.log.lh.n = 0)
    (hlog : log = { w.log with outstanding := 0, committing := true }) :
    ∃ w', w.commit p log = some w' ∧ Inv sb d w' := by
  have hlh : log.lh = w.log.lh := by rw [hlog]
  have hempty : w.log.lh.logged = ∅ := by simp [Logheader.logged, hn]
  have hcommit : Log.commit p ⟨w.sys.bc, log⟩ = .ok () ⟨w.sys.bc, log⟩ :=
    commit_empty (by rw [hlh]; exact hn)
  refine ⟨_, by simp only [World.commit, hcommit]; rfl, ?_⟩
  have hissued : (w.sys.view rootdev w.log.lh.logged).issued = w.sys.bc.issued ++ [] := by
    simp [Sys.view]
  refine hinv.committed hquiet (hinv.cache.repr (by decide) hquiet hinv.pinned p) ?_ ?_
    (fun _ => rfl) hissued rfl hinv.clear ?_ ?_ ?_
  · funext n
    exact hinv.cache.content_of_unpinned hquiet hinv.pinned (by simp [hempty])
  · simp [Sys.view, hempty]
  · have hsame : (⟨0, w.log.lh.block⟩ : Logheader) = w.log.lh := by rw [← hn]
    rw [hlog, hlast]
    simp [hsame]
  · rw [hlh, if_pos hn]
    simpa using hinv.points
  · rw [hlh, if_pos hn]
    simpa using hinv.history

end Commit

section Preservation

variable [DecidableEq P] {sb : Superblock} {d : Nat → Block} {w w' : World P} {p : P}

/-- A buffer in use keeps its block. -/
theorem Inv.keeps_block {a : Bio.Act P Block} {s' : Sys P Block} {b : Nat} (hinv : Inv sb d w)
    (hstep : Bio.step w.sys a = some s') (hb : b < nbuf)
    (hused : 0 < w.sys.users b + w.sys.pins b) :
    (s'.bc.buf b).dev = (w.sys.bc.buf b).dev ∧
      (s'.bc.buf b).blockno = (w.sys.bc.buf b).blockno := by
  obtain ⟨l, hlinked⟩ := hinv.cache.linked
  apply step_keeps_block hlinked hstep
  rw [(hinv.cache.bufInv b hb).count]
  omega

/-- The pins stay exact while the cache is used. -/
theorem Inv.pinned_cache {a : Bio.Act P Block} {s' : Sys P Block} (hinv : Inv sb d w)
    (hinv' : Bio.Inv rootdev s') (hstep : Bio.step w.sys a = some s')
    (hpins : s'.pins = w.sys.pins) : PinnedExactly rootdev s' w.log.lh.logged := by
  have hcached : ∀ n ∈ w.log.lh.logged, ∃ b, Tagged w.sys.bc rootdev b n ∧
      Tagged s'.bc rootdev b n := by
    intro n hn
    obtain ⟨b, hb, hbdev, rfl⟩ := hinv.pinned.cached n hn
    have hpin := hinv.pinned.pins b hb
    rw [if_pos ⟨hbdev, hn⟩] at hpin
    obtain ⟨h₁, h₂⟩ := hinv.keeps_block hstep hb (by omega)
    exact ⟨b, ⟨hb, hbdev, rfl⟩, hb, h₁.trans hbdev, h₂⟩
  constructor
  · intro b hb
    rw [hpins]
    by_cases hpos : 0 < w.sys.pins b
    · obtain ⟨h₁, h₂⟩ := hinv.keeps_block hstep hb (by omega)
      rw [h₁, h₂]
      exact hinv.pinned.pins b hb
    · rw [if_neg]
      · omega
      · rintro ⟨hbdev, hmem⟩
        -- The buffer that held this block before still does, so it is `b`.
        obtain ⟨c, ⟨hc, hcdev, hcn⟩, hc', hcdev', hcn'⟩ := hcached _ hmem
        have hbc : b = c := hinv'.uniq b hb c hc (by rw [hbdev]; decide) (by rw [hbdev, hcdev'])
          hcn'.symm
        have hpin := hinv.pinned.pins c hc
        rw [if_pos ⟨hcdev, by rw [hcn]; exact hmem⟩] at hpin
        rw [hbc] at hpos
        omega
  · intro n hn
    obtain ⟨b, -, htag⟩ := hcached n hn
    exact ⟨b, htag⟩

/-- A step of the cache keeps the invariant. -/
theorem inv_cache {a : Bio.Act P Block} (hinv : Inv sb d w) (hrule : Rule w (.cache a))
    (hstep : step w (.cache a) = some w') : Inv sb d w' := by
  simp only [step] at hstep
  split at hstep
  next p hcaller =>
    obtain ⟨⟨hactive, hcall⟩, hstep⟩ := Option.ite_none_right_eq_some.mp hstep
    obtain ⟨s', hbio, rfl⟩ := Option.map_eq_some_iff.mp hstep
    have hframe := frame_step hinv.cache.linked hcaller hbio
    have hcache : Bio.Inv rootdev s' := by
      refine Bio.inv_step (a := a) (by decide) hinv.cache ?_ ?_ ?_ hbio
      · -- A changed buffer is logged, hence pinned, when it is released.
        cases a with
        | brelse q b =>
          rcases hrule with hclean | hlogged
          · exact Or.inl hclean
          · obtain ⟨hlock, -, -⟩ := step_brelse hbio
            obtain ⟨hb, hbdev⟩ := hinv.cache.dev_of_users (b := b) (by simp [Sys.users, hlock])
            have hpin := hinv.pinned.pins b hb
            rw [if_pos ⟨hbdev, hlogged⟩] at hpin
            exact Or.inr (by omega)
        | bunpin b => cases hcaller
        | bget _ _ _ | acquiresleep _ _ | fill _ _ | modify _ _ _ | bwrite _ _ | drop _ _
        | bpin _ => trivial
      · cases a with
        | bget q dev n => exact hrule.1
        | brelse _ _ | acquiresleep _ _ | fill _ _ | modify _ _ _ | bwrite _ _ | drop _ _
        | bpin _ | bunpin _ => trivial
      · cases a with
        | bget q dev n => exact hrule.2
        | bpin b => cases hcaller
        | brelse _ _ | acquiresleep _ _ | fill _ _ | modify _ _ _ | bwrite _ _ | drop _ _
        | bunpin _ => trivial
    refine { hinv with
      cache := hcache
      pinned := hinv.pinned_cache hcache hbio hframe.pins
      users := fun b q hq => ?_
      calls := fun q b hq => ?_
      disk := by simpa only [hframe.disk, hframe.issued] using hinv.disk
      clear := by simpa only [hframe.disk] using hinv.clear
      points := by simpa only [hframe.issued] using hinv.points
      history := by simpa only [hframe.issued] using hinv.history }
    · by_cases hqp : q = p
      · rw [hqp]
        exact hactive
      · rw [hframe.waiting b q hqp, hframe.leaving b q hqp, hframe.lock b q hqp] at hq
        exact hinv.users b q hq
    · have hqp : q ≠ p := by
        rintro rfl
        simp [hcall] at hq
      obtain ⟨hlock, hsmall, harea⟩ := hinv.calls q b hq
      have hused : 0 < w.sys.users b := by simp [Sys.users, hlock]
      obtain ⟨-, hblock⟩ := hinv.keeps_block hbio (hinv.cache.dev_of_users hused).1 (by omega)
      refine ⟨(hframe.lock b q hqp).mpr hlock, ?_, ?_⟩
      · rw [hblock]
        exact hsmall
      · rw [hblock]
        exact harea
  · cases hstep

/-- `begin_op` keeps the invariant. -/
theorem inv_beginOp (hinv : Inv sb d w) (hstep : step w (.beginOp p) = some w') :
    Inv sb d w' := by
  simp only [step] at hstep
  split at hstep
  · cases hstep
  rename_i hp
  obtain ⟨log, hbegin, rfl⟩ := Option.map_eq_some_iff.mp hstep
  obtain ⟨-, -, rfl⟩ := beginOp_eq_some hbegin
  exact { hinv with
    count := by simp [Finset.card_insert_of_notMem hp, hinv.count]
    fits := { hinv.fits with }
    users := fun b q hq => Finset.mem_insert_of_mem (hinv.users b q hq) }

/-- `log_write` keeps the invariant. -/
theorem inv_logWrite {b : Nat} (hinv : Inv sb d w) (hrule : Rule w (.logWrite p b))
    (hstep : step w (.logWrite p b) = some w') : Inv sb d w' := by
  obtain ⟨⟨hactive, -, hlock, -⟩, hstep⟩ := Option.ite_none_right_eq_some.mp hstep
  split at hstep
  · cases hstep
    refine { hinv with calls := fun q c hq => ?_ }
    obtain rfl | hqp := eq_or_ne q p
    · simp only [update_self, Option.some.injEq] at hq
      subst hq
      refine ⟨hlock, hrule.1, ?_⟩
      rw [← hinv.start, ← hinv.size]
      exact hrule.2
    · simp only [update_of_ne hqp] at hq
      exact hinv.calls q c hq
  · cases hstep

/-- The insertion into the header keeps the invariant. -/
theorem inv_insert (hinv : Inv sb d w) (hrule : Rule w (.insert p))
    (hstep : step w (.insert p) = some w') : Inv sb d w' := by
  simp only [step] at hstep
  split at hstep
  · cases hstep
  rename_i b hcall
  obtain ⟨hlock, hsmall, harea⟩ := hinv.calls p b hcall
  obtain ⟨hfit, hbound⟩ := hrule b hcall
  obtain ⟨hb, hbdev⟩ := hinv.cache.dev_of_users (b := b) (by simp [Sys.users, hlock])
  have hcalls : ∀ q c, update w.call p none q = some c → w.call q = some c := by
    intro q c hq
    by_cases hqp : q = p
    · simp [hqp] at hq
    · simpa [hqp] using hq
  rcases logWriteInsert_cases w.log.lh (w.sys.bc.buf b).blockno with ⟨hold, heq⟩ | ⟨hnew, heq⟩
  · -- Absorption: the header and the pins stay.
    simp only [heq] at hstep
    cases hstep
    exact { hinv with calls := fun q c hq => hinv.calls q c (hcalls q c hq) }
  · simp only [heq, if_true] at hstep
    obtain ⟨s', hpin, rfl⟩ := Option.map_eq_some_iff.mp hstep
    have hcache : Bio.Inv rootdev s' := inv_bpin hinv.cache hbound hpin
    simp only [Bio.step, if_pos hb, Option.some.injEq] at hpin
    have hroom : w.log.lh.n < w.log.size - 1 := (hfit.resolve_left hnew).2
    have hlogged : (⟨w.log.lh.n + 1, update w.log.lh.block w.log.lh.n
        (w.sys.bc.buf b).blockno⟩ : Logheader).logged =
          insert (w.sys.bc.buf b).blockno w.log.lh.logged := by
      rw [← logged_logWriteInsert, heq]
    have hlocks : ∀ c, (s'.bc.buf c).lock = (w.sys.bc.buf c).lock ∧
        (s'.bc.buf c).blockno = (w.sys.bc.buf c).blockno := by
      intro c
      subst hpin
      by_cases hcb : c = b <;> simp [Bio.bpin, hcb]
    have hpinned := hinv.pinned_insert ⟨hb, hbdev, rfl⟩ hnew hpin.symm
    subst hpin
    refine { hinv with
      cache := hcache
      pinned := by rwa [hlogged]
      fits := hinv.fits_insert rfl (by rw [heq]) hroom harea
      small := fun i hi => ?_
      users := fun c q hq => hinv.users c q ?_
      calls := fun q c hq => ?_ }
    · by_cases hin : i = w.log.lh.n
      · simpa [hin] using hsmall
      · simp only [update_of_ne hin]
        exact hinv.small i (by simp only at hi; omega)
    · rwa [(hlocks c).1] at hq
    · rw [(hlocks c).1, (hlocks c).2]
      exact hinv.calls q c (hcalls q c hq)

/-- The last `end_op` commits and does not panic. -/
theorem Inv.endOp (hinv : Inv sb d w) (hactive : p ∈ w.active) (hcall : w.call p = none)
    (hrule : Rule w (.endOp p)) : ∃ w', step w (.endOp p) = some w' ∧ Inv sb d w' := by
  have hcount := hinv.count
  cases hend : Log.endOp w.log with
  | error e =>
    simp only [Log.endOp, hinv.idle] at hend
    split at hend
    next h =>
      simp at h
    · split at hend <;> cases hend
  | ok r =>
    obtain ⟨log, flag⟩ := r
    obtain ⟨-, hflag, hlog⟩ := endOp_ok hend
    have hstep : step w (.endOp p) = match (Except.ok (log, flag) : Except String (Log × Bool)) with
        | .error _ => none
        | .ok (log, false) => some { w with log := log, active := w.active.erase p }
        | .ok (log, true) => w.commit p log := by
      simp only [step, if_pos (And.intro hactive hcall), hend]
    cases flag with
    | false =>
      refine ⟨_, hstep, ?_⟩
      have hcard := Finset.card_erase_of_mem hactive
      have hpos := Finset.card_pos.mpr ⟨p, hactive⟩
      subst hlog
      refine { hinv with
        idle := rfl
        count := ?_
        fits := { hinv.fits with }
        users := fun b q hq => Finset.mem_erase.mpr ⟨?_, hinv.users b q hq⟩ }
      · simp only [hcount, hcard]
        omega
      · rintro rfl
        obtain ⟨h₁, h₂, h₃⟩ := hrule b
        rcases hq with hq | hq | hq
        · exact h₁ hq
        · exact h₂ hq
        · exact h₃ hq
    | true =>
      have hout : w.log.outstanding = 1 := hflag.mp rfl
      have hlast : w.active = {p} := by
        rw [hout] at hcount
        obtain ⟨q, hq⟩ := Finset.card_eq_one.mp (by exact_mod_cast hcount.symm)
        rw [hq, Finset.mem_singleton] at hactive
        rw [hq, hactive]
      have hquiet := hinv.quiescent hlast hrule
      have hlog' : log = { w.log with outstanding := 0, committing := true } := by
        rw [hlog, hout]
        rfl
      rw [hstep]
      by_cases hn : w.log.lh.n = 0
      · exact hinv.commit_nothing hlast hquiet hn hlog'
      · exact hinv.commit_group hlast hquiet hn hlog'

/-- Every step of well-behaved operations keeps the invariant. -/
theorem inv_step {a : Act P} (hinv : Inv sb d w) (hrule : Rule w a)
    (hstep : step w a = some w') : Inv sb d w' := by
  cases a with
  | beginOp p => exact inv_beginOp hinv hstep
  | cache a => exact inv_cache hinv hrule hstep
  | logWrite p b => exact inv_logWrite hinv hrule hstep
  | insert p => exact inv_insert hinv hrule hstep
  | endOp p =>
    have henabled : p ∈ w.active ∧ w.call p = none := by
      by_contra hnot
      simp [step, hnot] at hstep
    obtain ⟨w₁, hstep₁, hinv₁⟩ := hinv.endOp henabled.1 henabled.2 hrule
    rw [hstep] at hstep₁
    rwa [Option.some.inj hstep₁]

end Preservation

end Crash
end Xv6
