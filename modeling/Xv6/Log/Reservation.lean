import Mathlib.Algebra.BigOperators.Group.Finset.Basic
import Mathlib.Algebra.Order.BigOperators.Group.Finset
import Mathlib.Tactic
import Xv6.Lib.Run
import Xv6.Log.Ops

/-!
# Log space reservation

Any number of processes bracket their updates by `begin_op` and `end_op`.  The
last `end_op` commits the group of operations that ran together.  `begin_op`
reserves `maxopblocks` blocks for every operation it admits, and `log_write`
checks for space before it takes the log's lock, so other calls may come between
its check and its insertion.

Main results:

- Theorem {lit}`inv_step`: every step of an operation that keeps to its quota
  keeps the reservation invariant.
- Theorem {lit}`log_write_has_room`: the reservation covers the limit
  `logsize`, and `log_write` has room on disk as long as the group has logged
  fewer than `nlog - 1` blocks.
- Theorem {lit}`log_write_too_big`: three operations that use their full quota
  run into the panic.
-/

namespace Xv6
namespace Log

open Lib Function

variable {P : Type}

/-! ## Interleaved operations -/

/-- The size of the log that `mkfs` writes into the superblock. -/
def nlog : Nat := logsize

/-- The log shared by all operations.  `blocks p` are the blocks that the open
operation of `p` has logged, `call p` is the block of a `log_write` that has
passed its checks and waits for the log's lock, and `group` collects the blocks
logged since the last commit. -/
structure Sys (P : Type) where
  log : Log
  active : Finset P
  blocks : P → Finset Nat
  call : P → Option Nat
  group : Finset Nat

/-- The atomic sections of the log's interface.  Nothing else can run between
the last `end_op` and the end of its `commit`. -/
inductive Act (P : Type) where
  | beginOp (p : P)
  | logWrite (p : P) (blockno : Nat)
  | insert (p : P)
  | endOp (p : P)
  | commit

/-- The system after `initlog` on a disk with an empty log. -/
def Sys.init (logstart : Nat) : Sys P where
  log := ⟨logstart, nlog, 0, false, rootdev, ⟨0, fun _ => 0⟩⟩
  active := ∅
  blocks := fun _ => ∅
  call := fun _ => none
  group := ∅

/-- Process `p` is between `begin_op` and `end_op` and not inside a call. -/
def Sys.Admitted (s : Sys P) (p : P) : Prop :=
  p ∈ s.active ∧ s.call p = none

/-- Admission is decidable. -/
instance [DecidableEq P] (s : Sys P) (p : P) : Decidable (s.Admitted p) :=
  inferInstanceAs (Decidable (_ ∧ _))

/-- One atomic section of one call.  There is no step where the code panics or
where the process has to sleep. -/
def step [DecidableEq P] (s : Sys P) : Act P → Option (Sys P)
  | .beginOp p =>
    if p ∈ s.active then none
    else
      match beginOp s.log with
      | some log => some { s with
          log := log
          active := insert p s.active
          blocks := update s.blocks p ∅ }
      | none => none
  | .logWrite p blockno =>
    if s.Admitted p then
      match logWriteCheck s.log with
      | .ok () => some { s with
          blocks := update s.blocks p (insert blockno (s.blocks p))
          call := update s.call p (some blockno)
          group := insert blockno s.group }
      | .error _ => none
    else none
  | .insert p =>
    match s.call p with
    | some blockno => some { s with
        log := { s.log with lh := (logWriteInsert s.log.lh blockno).1 }
        call := update s.call p none }
    | none => none
  | .endOp p =>
    if s.Admitted p then
      match endOp s.log with
      | .ok (log, _) => some { s with log := log, active := s.active.erase p }
      | .error _ => none
    else none
  | .commit =>
    if s.log.committing then
      some { s with
        log := { s.log with lh := { s.log.lh with n := 0 }, committing := false }
        group := ∅ }
    else none

/-- Each operation logs at most `maxopblocks` distinct blocks. -/
def Quota (s : Sys P) : Act P → Prop
  | .logWrite p blockno => (insert blockno (s.blocks p)).card ≤ maxopblocks
  | _ => True

/-- The group has logged fewer blocks than the log area holds beside its header. -/
def RoomLeft (s : Sys P) : Act P → Prop
  | .logWrite _ _ => s.group.card < nlog - 1
  | _ => True

/-- The quota is decidable. -/
instance (s : Sys P) : DecidablePred (Quota s)
  | .logWrite p blockno =>
    inferInstanceAs (Decidable ((insert blockno (s.blocks p)).card ≤ maxopblocks))
  | .beginOp _ | .insert _ | .endOp _ | .commit => isTrue trivial

/-- The rule is decidable. -/
instance (s : Sys P) : DecidablePred (RoomLeft s)
  | .logWrite _ _ => inferInstanceAs (Decidable (s.group.card < nlog - 1))
  | .beginOp _ | .insert _ | .endOp _ | .commit => isTrue trivial

/-! ## The invariant -/

/-- What the operation of `p` may still log. -/
def Sys.unused (s : Sys P) (p : P) : Nat :=
  maxopblocks - (s.blocks p).card

/-- The reservation invariant. -/
structure Inv (s : Sys P) : Prop where
  size : s.log.size = nlog
  count : s.log.outstanding = s.active.card
  committing : s.log.committing = true → s.active = ∅
  distinct : s.log.lh.Distinct
  logged : s.log.lh.logged ⊆ s.group
  pending : ∀ blockno ∈ s.group, blockno ∈ s.log.lh.logged ∨ ∃ p, s.call p = some blockno
  called : ∀ p blockno, s.call p = some blockno → p ∈ s.active ∧ blockno ∈ s.blocks p
  owned : ∀ p ∈ s.active, s.blocks p ⊆ s.group
  quota : ∀ p ∈ s.active, (s.blocks p).card ≤ maxopblocks
  reserve : s.group.card + ∑ p ∈ s.active, s.unused p ≤ logsize

/-- It holds at the start. -/
theorem inv_init (logstart : Nat) : Inv (Sys.init logstart : Sys P) where
  size := rfl
  count := by simp [Sys.init]
  committing := by simp [Sys.init]
  distinct := by intro i hi; simp [Sys.init] at hi
  logged := by simp [Sys.init, Logheader.logged]
  pending := by simp [Sys.init]
  called := by simp [Sys.init]
  owned := by simp [Sys.init]
  quota := by simp [Sys.init]
  reserve := by simp [Sys.init]

namespace Inv

variable {s : Sys P}

/-- The header never holds more blocks than the group has logged. -/
theorem n_le_group (hinv : Inv s) : s.log.lh.n ≤ s.group.card := by
  rw [← hinv.distinct.card_logged]
  exact Finset.card_le_card hinv.logged

/-- Without calls in flight the header holds exactly the group's blocks. -/
theorem n_eq_group (hinv : Inv s) (hquiet : ∀ p, s.call p = none) :
    s.log.lh.n = s.group.card := by
  have hsub : s.group ⊆ s.log.lh.logged := by
    intro blockno hmem
    rcases hinv.pending blockno hmem with h | ⟨p, hp⟩
    · exact h
    · simp [hquiet p] at hp
  rw [← hinv.distinct.card_logged, hinv.logged.antisymm hsub]

/-- What the group has logged and what its open operations may still log is
covered by the header and a full quota for each open operation. -/
theorem reserve_le (hinv : Inv s) :
    s.group.card + ∑ p ∈ s.active, s.unused p ≤ s.log.lh.n + s.active.card * maxopblocks := by
  have hsub : s.group ⊆ s.log.lh.logged ∪ s.active.biUnion s.blocks := by
    intro blockno hmem
    rcases hinv.pending blockno hmem with h | ⟨p, hp⟩
    · exact Finset.mem_union_left _ h
    · obtain ⟨hactive, hblock⟩ := hinv.called p blockno hp
      exact Finset.mem_union_right _ (Finset.mem_biUnion.mpr ⟨p, hactive, hblock⟩)
  have hcard : s.group.card ≤ s.log.lh.n + ∑ p ∈ s.active, (s.blocks p).card := by
    calc s.group.card ≤ (s.log.lh.logged ∪ s.active.biUnion s.blocks).card :=
          Finset.card_le_card hsub
      _ ≤ s.log.lh.logged.card + (s.active.biUnion s.blocks).card := Finset.card_union_le _ _
      _ ≤ s.log.lh.n + ∑ p ∈ s.active, (s.blocks p).card := by
          rw [hinv.distinct.card_logged]
          exact Nat.add_le_add_left Finset.card_biUnion_le _
  have hsplit : ∑ p ∈ s.active, (s.blocks p).card + ∑ p ∈ s.active, s.unused p =
      s.active.card * maxopblocks := by
    rw [← Finset.sum_add_distrib, ← smul_eq_mul, ← Finset.sum_const]
    apply Finset.sum_congr rfl
    intro p hp
    have := hinv.quota p hp
    unfold Sys.unused
    omega
  omega

/-- An operation within its quota that logs a new block draws on its own
reservation. -/
theorem room_of_quota [DecidableEq P] {p : P} {blockno : Nat} (hinv : Inv s)
    (hactive : p ∈ s.active)
    (hquota : Quota s (.logWrite p blockno)) (hnew : blockno ∉ s.group) :
    s.group.card + 1 + (∑ q ∈ s.active.erase p, s.unused q) +
      (maxopblocks - (insert blockno (s.blocks p)).card) ≤ logsize := by
  have hfresh : blockno ∉ s.blocks p := fun hmem => hnew (hinv.owned p hactive hmem)
  have hreserve := hinv.reserve
  rw [← Finset.add_sum_erase _ _ hactive] at hreserve
  simp only [Quota, Finset.card_insert_of_notMem hfresh] at hquota ⊢
  simp only [Sys.unused] at hreserve ⊢
  omega

end Inv

/-! ## Preservation -/

section Preservation

variable [DecidableEq P] {s s' : Sys P} {p : P}

/-- `begin_op` keeps the invariant. -/
theorem inv_beginOp (hinv : Inv s) (hstep : step s (.beginOp p) = some s') : Inv s' := by
  simp only [step] at hstep
  split at hstep
  · cases hstep
  rename_i hp
  split at hstep
  next log hbegin =>
    cases hstep
    obtain ⟨hcommitting, hroom, rfl⟩ := beginOp_eq_some hbegin
    -- The blocks of the other operations are as before.
    have hother : ∀ q ∈ s.active, update s.blocks p ∅ q = s.blocks q := by
      intro q hq
      have hne : q ≠ p := by
        rintro rfl
        exact hp hq
      rw [update_of_ne hne]
    refine { hinv with
      count := by simp [Finset.card_insert_of_notMem hp, hinv.count]
      committing := by simp [hcommitting]
      called := fun q blockno hq => ?_
      owned := fun q hq => ?_
      quota := fun q hq => ?_
      reserve := ?_ }
    · obtain ⟨hactive, hblock⟩ := hinv.called q blockno hq
      exact ⟨Finset.mem_insert_of_mem hactive, by simpa [hother q hactive] using hblock⟩
    · rcases Finset.mem_insert.mp hq with rfl | hq
      · simp
      · simpa [hother q hq] using hinv.owned q hq
    · rcases Finset.mem_insert.mp hq with rfl | hq
      · simp
      · simpa [hother q hq] using hinv.quota q hq
    · have hsame : ∑ q ∈ s.active, (maxopblocks - (update s.blocks p ∅ q).card) =
          ∑ q ∈ s.active, s.unused q := by
        apply Finset.sum_congr rfl
        intro q hq
        rw [hother q hq, Sys.unused]
      have hle := hinv.reserve_le
      have hroom' : s.log.lh.n + (s.active.card + 1) * maxopblocks ≤ logsize := by
        rw [hinv.count] at hroom
        exact_mod_cast hroom
      rw [Nat.add_one_mul] at hroom'
      simp only [Sys.unused, Finset.sum_insert hp, update_self, Finset.card_empty]
      rw [hsame]
      omega
  · cases hstep

/-- What `log_write` does. -/
theorem step_logWrite {blockno : Nat} (hstep : step s (.logWrite p blockno) = some s') :
    s.Admitted p ∧ logWriteCheck s.log = .ok () ∧ s' = { s with
      blocks := update s.blocks p (insert blockno (s.blocks p))
      call := update s.call p (some blockno)
      group := insert blockno s.group } := by
  obtain ⟨hadmitted, hstep⟩ := Option.ite_none_right_eq_some.mp hstep
  split at hstep
  next hcheck =>
    exact ⟨hadmitted, hcheck, (Option.some.inj hstep).symm⟩
  · cases hstep

/-- `log_write` within the quota keeps the invariant. -/
theorem inv_logWrite {blockno : Nat} (hinv : Inv s) (hquota : Quota s (.logWrite p blockno))
    (hstep : step s (.logWrite p blockno) = some s') : Inv s' := by
  obtain ⟨⟨hactive, hidle⟩, -, rfl⟩ := step_logWrite hstep
  refine { hinv with
    logged := hinv.logged.trans (Finset.subset_insert _ _)
    pending := fun x hx => ?_
    called := fun q x hq => ?_
    owned := fun q hq => ?_
    quota := fun q hq => ?_
    reserve := ?_ }
  · by_cases hxb : x = blockno
    · exact Or.inr ⟨p, by simp [hxb]⟩
    · rcases hinv.pending x (by simpa [hxb] using hx) with h | ⟨q, hq⟩
      · exact Or.inl h
      · have hqp : q ≠ p := by
          rintro rfl
          simp [hidle] at hq
        exact Or.inr ⟨q, by simpa [hqp] using hq⟩
  · obtain rfl | hqp := eq_or_ne q p
    · simp only [update_self, Option.some.injEq] at hq
      simp [hactive, hq]
    · simp only [update_of_ne hqp] at hq ⊢
      exact hinv.called q x hq
  · obtain rfl | hqp := eq_or_ne q p
    · simp only [update_self]
      exact Finset.insert_subset_insert _ (hinv.owned q hq)
    · simp only [update_of_ne hqp]
      exact (hinv.owned q hq).trans (Finset.subset_insert _ _)
  · obtain rfl | hqp := eq_or_ne q p
    · simpa [Quota] using hquota
    · simpa [hqp] using hinv.quota q hq
  · simp only [Sys.unused]
    rw [← Finset.add_sum_erase _ _ hactive]
    have hrest : ∑ q ∈ s.active.erase p,
        (maxopblocks - (update s.blocks p (insert blockno (s.blocks p)) q).card) =
          ∑ q ∈ s.active.erase p, s.unused q := by
      apply Finset.sum_congr rfl
      intro q hq
      rw [update_of_ne (Finset.ne_of_mem_erase hq), Sys.unused]
    rw [hrest, update_self]
    by_cases hnew : blockno ∈ s.group
    · have hreserve := hinv.reserve
      rw [← Finset.add_sum_erase _ _ hactive] at hreserve
      have hmono := Finset.card_le_card (Finset.subset_insert blockno (s.blocks p))
      rw [Finset.insert_eq_of_mem hnew]
      simp only [Sys.unused] at hreserve ⊢
      omega
    · have hroom := hinv.room_of_quota hactive hquota hnew
      rw [Finset.card_insert_of_notMem hnew]
      omega

/-- The insertion into the header keeps the invariant. -/
theorem inv_insert (hinv : Inv s) (hstep : step s (.insert p) = some s') : Inv s' := by
  simp only [step] at hstep
  split at hstep
  next blockno hcall =>
    cases hstep
    obtain ⟨hactive, hblock⟩ := hinv.called p blockno hcall
    refine { hinv with
      distinct := distinct_logWriteInsert blockno hinv.distinct
      logged := ?_
      pending := fun x hx => ?_
      called := fun q x hq => ?_ }
    · simp only [logged_logWriteInsert]
      exact Finset.insert_subset (hinv.owned p hactive hblock) hinv.logged
    · simp only [logged_logWriteInsert, Finset.mem_insert]
      rcases hinv.pending x hx with h | ⟨q, hq⟩
      · exact Or.inl (Or.inr h)
      · obtain rfl | hqp := eq_or_ne q p
        · rw [hcall, Option.some.injEq] at hq
          exact Or.inl (Or.inl hq.symm)
        · exact Or.inr ⟨q, by simpa [hqp] using hq⟩
    · obtain rfl | hqp := eq_or_ne q p
      · simp at hq
      · simp only [update_of_ne hqp] at hq
        exact hinv.called q x hq
  · cases hstep

/-- `end_op` keeps the invariant. -/
theorem inv_endOp (hinv : Inv s) (hstep : step s (.endOp p) = some s') : Inv s' := by
  obtain ⟨⟨hactive, hidle⟩, hstep⟩ := Option.ite_none_right_eq_some.mp hstep
  split at hstep
  next log flag hend =>
    cases hstep
    obtain ⟨-, hcommit, rfl⟩ := endOp_ok hend
    have hcard := Finset.card_erase_of_mem hactive
    have hpos := Finset.card_pos.mpr ⟨p, hactive⟩
    have hcount := hinv.count
    refine { hinv with
      count := ?_
      committing := fun hcommitting => ?_
      called := fun q blockno hq => ?_
      owned := fun q hq => hinv.owned q (Finset.mem_of_mem_erase hq)
      quota := fun q hq => hinv.quota q (Finset.mem_of_mem_erase hq)
      reserve := ?_ }
    · simp only [hcount, hcard]
      omega
    · have hone := hcommit.mp hcommitting
      apply Finset.card_eq_zero.mp
      change (s.active.erase p).card = 0
      omega
    · have hqp : q ≠ p := by
        rintro rfl
        simp [hidle] at hq
      obtain ⟨hq₁, hq₂⟩ := hinv.called q blockno hq
      exact ⟨Finset.mem_erase.mpr ⟨hqp, hq₁⟩, hq₂⟩
    · have hreserve := hinv.reserve
      rw [← Finset.add_sum_erase _ _ hactive] at hreserve
      simp only [Sys.unused] at hreserve ⊢
      omega
  · cases hstep

/-- A commit keeps the invariant. -/
theorem inv_commit (hinv : Inv s) (hstep : step s .commit = some s') : Inv s' := by
  obtain ⟨hcommitting, ⟨⟩⟩ := Option.ite_none_right_eq_some.mp hstep
  have hempty := hinv.committing hcommitting
  have hidle : ∀ q, s.call q = none := by
    intro q
    cases hcall : s.call q with
    | none => rfl
    | some blockno =>
      have := (hinv.called q blockno hcall).1
      simp [hempty] at this
  constructor
  · exact hinv.size
  · exact hinv.count
  · simp
  · intro i hi
    simp at hi
  · simp [Logheader.logged]
  · simp
  · simp [hidle]
  · simp [hempty]
  · simp [hempty]
  · simp [hempty]

/-- Every step of an operation that keeps to its quota keeps the invariant. -/
theorem inv_step {a : Act P} (hinv : Inv s) (hquota : Quota s a) (hstep : step s a = some s') :
    Inv s' := by
  cases a with
  | beginOp p => exact inv_beginOp hinv hstep
  | logWrite p blockno => exact inv_logWrite hinv hquota hstep
  | insert p => exact inv_insert hinv hstep
  | endOp p => exact inv_endOp hinv hstep
  | commit => exact inv_commit hinv hstep

end Preservation

/-! ## Space for every `log_write` -/

/-- The first check of `log_write` compares the header with both limits; on the
disk of `mkfs` the second one is the smaller. -/
theorem logWriteCheck_too_big {log : Log} (hsize : log.size = nlog) :
    logWriteCheck log = .error "too big a transaction" ↔ nlog - 1 ≤ log.lh.n := by
  have hnlog : nlog = logsize := rfl
  unfold logWriteCheck
  split_ifs with hbig hout
  · simp only [true_iff]
    omega
  · simp only [Except.error.injEq, String.reduceEq, false_iff]
    omega
  · simp only [false_iff]
    omega

/-- `log_write` passes its checks. -/
theorem logWriteCheck_ok {log : Log} (hsize : log.size = nlog) (hroom : log.lh.n < nlog - 1)
    (hout : 0 < log.outstanding) : logWriteCheck log = .ok () := by
  unfold logWriteCheck
  rw [if_neg (by rw [hsize]; unfold nlog at *; omega), if_neg (by omega)]

/-- While every call comes when the group has room left, the group fits beside
the header. -/
theorem group_le_of_run [DecidableEq P] {logstart : Nat} {s : Sys P}
    (hrun : Run step (fun s a => Quota s a ∧ RoomLeft s a) (Sys.init logstart) s) :
    s.group.card ≤ nlog - 1 := by
  refine hrun.invariant (I := fun t => t.group.card ≤ nlog - 1) (by simp [Sys.init]) ?_
  rintro t a t' hle ⟨-, hroom⟩ hstep
  cases a with
  | logWrite p blockno =>
    obtain ⟨-, -, rfl⟩ := step_logWrite hstep
    have hroom : t.group.card < nlog - 1 := hroom
    exact (Finset.card_insert_le _ _).trans hroom
  | commit =>
    simp only [step] at hstep
    split at hstep <;> cases hstep
    simp
  | beginOp p | insert p | endOp p =>
    -- These steps leave the group alone.
    simp only [step] at hstep
    repeat' split at hstep
    all_goals cases hstep
    all_goals exact hle

/-- The reservation of `begin_op` covers the limit `logsize`: an operation within
its quota finds the header below it or its block already there.  The limit of
the log area is one block less: when no other call is in flight, `log_write`
panics exactly if the group has logged `nlog - 1` blocks.  In every run whose
calls all come before that, `log_write` never panics, and the group fits into the
log area together with the header. -/
theorem log_write_has_room [DecidableEq P] {logstart : Nat} {s : Sys P}
    (hrun : Run step Quota (Sys.init logstart) s) :
    (∀ p blockno, s.Admitted p → Quota s (.logWrite p blockno) →
      s.log.lh.n < logsize ∨ blockno ∈ s.log.lh.logged) ∧
    ((∀ p, s.call p = none) →
      (logWriteCheck s.log = .error "too big a transaction" ↔ nlog - 1 ≤ s.group.card)) ∧
    (Run step (fun s a => Quota s a ∧ RoomLeft s a) (Sys.init logstart) s →
      (∀ p blockno, s.Admitted p → RoomLeft s (.logWrite p blockno) →
        s.log.lh.n < logsize ∧ s.log.lh.n < s.log.size - 1 ∧ logWriteCheck s.log = .ok ()) ∧
      s.log.lh.n + 1 ≤ s.log.size) := by
  have hinv : Inv s := hrun.invariant (inv_init logstart) fun t a t' => inv_step
  have hn := hinv.n_le_group
  refine ⟨?_, ?_, ?_⟩
  · rintro p blockno ⟨hactive, -⟩ hquota
    by_cases hgroup : blockno ∈ s.group
    · rw [or_iff_not_imp_right]
      intro hnew
      -- The header misses a block of the group, so it is not full.
      have hlt : s.log.lh.logged.card < s.group.card :=
        Finset.card_lt_card ⟨hinv.logged, fun hsub => hnew (hsub hgroup)⟩
      rw [hinv.distinct.card_logged] at hlt
      exact hlt.trans_le ((Nat.le_add_right _ _).trans hinv.reserve)
    · have hroom := hinv.room_of_quota hactive hquota hgroup
      exact Or.inl (by omega)
  · intro hquiet
    rw [logWriteCheck_too_big hinv.size, hinv.n_eq_group hquiet]
  · intro hroomy
    have hfits := group_le_of_run hroomy
    have hsize := hinv.size
    have hnlog : nlog = logsize := rfl
    refine ⟨?_, ?_⟩
    · rintro p blockno ⟨hactive, -⟩ hroom
      have hroom : s.group.card < nlog - 1 := hroom
      have hout : 0 < s.log.outstanding := by
        rw [hinv.count]
        exact_mod_cast Finset.card_pos.mpr ⟨p, hactive⟩
      exact ⟨by omega, by omega, logWriteCheck_ok hsize (by omega) hout⟩
    · have : 0 < nlog := by decide
      omega

/-- One operation has logged block 50 and is about to log block 51. -/
theorem log_write_has_room_second_block :
    ∃ s : Sys Nat, exec step (fun s a => Quota s a ∧ RoomLeft s a) (Sys.init 2)
        [.beginOp 0, .logWrite 0 50, .insert 0] = some s ∧
      s.log.lh.n < s.log.size - 1 ∧ logWriteCheck s.log = .ok () := by
  obtain ⟨s, hs, hfacts⟩ := Option.map_eq_some_iff.mp (by decide +kernel : (exec step
    (fun s a => Quota s a ∧ RoomLeft s a) (Sys.init 2 : Sys Nat)
      [.beginOp 0, .logWrite 0 50, .insert 0]).map
        (fun s => decide (s.Admitted 0 ∧ RoomLeft s (.logWrite 0 51))) = some true)
  obtain ⟨hadmitted, hroom⟩ := of_decide_eq_true hfacts
  have hrun := exec_run hs
  have hall := (log_write_has_room (hrun.mono fun _ _ h => h.1)).2.2 hrun
  exact ⟨s, hs, (hall.1 0 51 hadmitted hroom).2⟩

/-- Three operations are admitted together and use their full quota.  The last
`log_write` is of a block that is not in the log, by an operation that has logged
nine blocks, and it panics. -/
theorem log_write_too_big :
    ∃ s : Sys Nat, Run step Quota (Sys.init 2) s ∧ s.Admitted 2 ∧
      Quota s (.logWrite 2 129) ∧ 129 ∉ s.log.lh.logged ∧
      logWriteCheck s.log = .error "too big a transaction" := by
  obtain ⟨s, hs, hfacts⟩ := Option.map_eq_some_iff.mp (by decide +kernel : (exec step Quota
    (Sys.init 2 : Sys Nat) ([.beginOp 0, .beginOp 1, .beginOp 2] ++
      (List.range 29).flatMap fun i => [.logWrite (i / 10) (100 + i), .insert (i / 10)])).map
        (fun s => decide (s.Admitted 2 ∧ Quota s (.logWrite 2 129) ∧ 129 ∉ s.log.lh.logged ∧
          logWriteCheck s.log = .error "too big a transaction")) = some true)
  exact ⟨s, exec_run hs, of_decide_eq_true hfacts⟩

end Log
end Xv6
