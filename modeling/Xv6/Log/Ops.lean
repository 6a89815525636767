import Mathlib.Data.Finset.Image
import Mathlib.Data.Finset.Card
import Mathlib.Tactic
import Xv6.Param

/-!
# Log operations

The in-memory log of `log.c` and the parts of `begin_op`, `log_write` and
`end_op` that work on it alone.  The buffer cache and the disk come in with the
commit, in a later module.

Main results:

- Theorem {lit}`logged_logWriteInsert`: `log_write` adds its block to the set of
  logged blocks, whether or not the block is absorbed.
- Theorem {lit}`distinct_logWriteInsert`: the logged blocks stay distinct.
-/

namespace Xv6

open Function

/-! ## Data -/

/-- `struct logheader`: the first `n` entries of `block` are the block numbers of
the current transaction. -/
structure Logheader where
  n : Nat
  block : Nat → Nat

/-- `struct log`, without its spin-lock. -/
structure Log where
  start : Nat
  size : Nat
  outstanding : Int
  committing : Bool
  dev : Nat
  lh : Logheader

/-- The set of blocks recorded in a log header. -/
def Logheader.logged (lh : Logheader) : Finset Nat :=
  (Finset.range lh.n).image lh.block

/-- The recorded blocks are pairwise distinct. -/
def Logheader.Distinct (lh : Logheader) : Prop :=
  ∀ i < lh.n, ∀ j < lh.n, lh.block i = lh.block j → i = j

theorem Logheader.mem_logged {lh : Logheader} {blockno : Nat} :
    blockno ∈ lh.logged ↔ ∃ i < lh.n, lh.block i = blockno := by
  simp [Logheader.logged]

/-- Distinct entries make `n` the number of logged blocks. -/
theorem Logheader.Distinct.card_logged {lh : Logheader} (hdistinct : lh.Distinct) :
    lh.logged.card = lh.n := by
  unfold Logheader.logged
  rw [Finset.card_image_of_injOn, Finset.card_range]
  intro i hi j hj heq
  simp only [Finset.coe_range, Set.mem_Iio] at hi hj
  exact hdistinct i hi j hj heq

namespace Log

/-! ## `begin_op` -/

/-- One pass through the loop of `begin_op`; there is no result while the
operation has to sleep. -/
def beginOp (log : Log) : Option Log :=
  if log.committing then none
  else if log.lh.n + (log.outstanding + 1) * maxopblocks > logsize then none
  else some { log with outstanding := log.outstanding + 1 }

theorem beginOp_eq_some {log log' : Log} (hbegin : beginOp log = some log') :
    log.committing = false ∧
      log.lh.n + (log.outstanding + 1) * maxopblocks ≤ logsize ∧
      log' = { log with outstanding := log.outstanding + 1 } := by
  unfold beginOp at hbegin
  split at hbegin
  · cases hbegin
  next hcommitting =>
    split at hbegin
    · cases hbegin
    next hroom =>
      exact ⟨by simpa using hcommitting, by omega, (Option.some.inj hbegin).symm⟩

/-! ## `log_write` -/

/-- The checks of `log_write`, made before it takes the log's lock. -/
def logWriteCheck (log : Log) : Except String Unit :=
  if log.lh.n ≥ logsize ∨ log.lh.n ≥ log.size - 1 then .error "too big a transaction"
  else if log.outstanding < 1 then .error "log_write outside of trans"
  else .ok ()

/-- The index at which the loop of `log_write` stops: the entry that already
holds the block, or the end of the header. -/
def logIndex (lh : Logheader) (blockno : Nat) : Nat :=
  ((List.range lh.n).find? fun i => lh.block i = blockno).getD lh.n

/-- The critical section of `log_write`.  The flag tells whether the buffer has
to be pinned. -/
def logWriteInsert (lh : Logheader) (blockno : Nat) : Logheader × Bool :=
  let i := logIndex lh blockno
  let lh := { lh with block := update lh.block i blockno }
  if i = lh.n then ({ lh with n := lh.n + 1 }, true) else (lh, false)

/-- The loop of `log_write` stops inside the header at the block, and at its end
if the block is not there. -/
theorem logIndex_spec (lh : Logheader) (blockno : Nat) :
    (logIndex lh blockno < lh.n ∧ lh.block (logIndex lh blockno) = blockno) ∨
      (logIndex lh blockno = lh.n ∧ blockno ∉ lh.logged) := by
  unfold logIndex
  cases hfind : (List.range lh.n).find? fun i => lh.block i = blockno with
  | none =>
    refine Or.inr ⟨rfl, ?_⟩
    intro hmem
    obtain ⟨i, hi, heq⟩ := Logheader.mem_logged.mp hmem
    have := List.find?_eq_none.mp hfind i (List.mem_range.mpr hi)
    simp [heq] at this
  | some i =>
    have hi := List.mem_range.mp (List.mem_of_find?_eq_some hfind)
    have hp := List.find?_some hfind
    exact Or.inl ⟨hi, by simpa using hp⟩

/-- What `log_write` does to the header: nothing if the block is in it, and
otherwise one entry more. -/
theorem logWriteInsert_cases (lh : Logheader) (blockno : Nat) :
    (blockno ∈ lh.logged ∧ logWriteInsert lh blockno = (lh, false)) ∨
      (blockno ∉ lh.logged ∧ logWriteInsert lh blockno =
        (⟨lh.n + 1, update lh.block lh.n blockno⟩, true)) := by
  rcases logIndex_spec lh blockno with ⟨hlt, heq⟩ | ⟨hend, hnew⟩
  · left
    refine ⟨Logheader.mem_logged.mpr ⟨_, hlt, heq⟩, ?_⟩
    have hsame : update lh.block (logIndex lh blockno) blockno = lh.block :=
      update_eq_self_iff.mpr heq.symm
    simp only [logWriteInsert]
    rw [if_neg (by simpa using hlt.ne), hsame]
  · right
    refine ⟨hnew, ?_⟩
    simp [logWriteInsert, hend]

/-- `log_write` adds its block to the logged set. -/
theorem logged_logWriteInsert (lh : Logheader) (blockno : Nat) :
    (logWriteInsert lh blockno).1.logged = insert blockno lh.logged := by
  rcases logWriteInsert_cases lh blockno with ⟨hold, heq⟩ | ⟨-, heq⟩
  · rw [heq, Finset.insert_eq_of_mem hold]
  · rw [heq]
    ext x
    simp only [Logheader.mem_logged, Finset.mem_insert]
    constructor
    · rintro ⟨i, hi, rfl⟩
      by_cases hin : i = lh.n
      · left
        simp [hin]
      · right
        exact ⟨i, by omega, by simp [hin]⟩
    · rintro (rfl | ⟨i, hi, rfl⟩)
      · exact ⟨lh.n, by omega, by simp⟩
      · exact ⟨i, by omega, by rw [update_of_ne (by omega)]⟩

/-- `log_write` keeps the recorded blocks distinct. -/
theorem distinct_logWriteInsert {lh : Logheader} (blockno : Nat) (hdistinct : lh.Distinct) :
    (logWriteInsert lh blockno).1.Distinct := by
  rcases logWriteInsert_cases lh blockno with ⟨-, heq⟩ | ⟨hnew, heq⟩
  · rw [heq]
    exact hdistinct
  · rw [heq]
    intro i hi j hj hij
    simp only at hi hj hij
    by_cases hin : i = lh.n <;> by_cases hjn : j = lh.n
    · rw [hin, hjn]
    · rw [hin, update_self, update_of_ne hjn] at hij
      exact (hnew (Logheader.mem_logged.mpr ⟨j, by omega, hij.symm⟩)).elim
    · rw [hjn, update_self, update_of_ne hin] at hij
      exact (hnew (Logheader.mem_logged.mpr ⟨i, by omega, hij⟩)).elim
    · rw [update_of_ne hin, update_of_ne hjn] at hij
      exact hdistinct i (by omega) j (by omega) hij

/-! ## `end_op` -/

/-- `end_op` up to the release of the log's lock.  The flag tells whether the
caller has to commit. -/
def endOp (log : Log) : Except String (Log × Bool) :=
  let log := { log with outstanding := log.outstanding - 1 }
  if log.committing then .error "log.committing"
  else if log.outstanding = 0 then .ok ({ log with committing := true }, true)
  else .ok (log, false)

/-- What `end_op` does to the log when it does not panic. -/
theorem endOp_ok {log log' : Log} {commit : Bool} (hend : endOp log = .ok (log', commit)) :
    log.committing = false ∧ (commit = true ↔ log.outstanding = 1) ∧
      log' = { log with outstanding := log.outstanding - 1, committing := commit } := by
  unfold endOp at hend
  simp only at hend
  split at hend
  · cases hend
  next hcommitting =>
    split at hend
    next hlast =>
      cases hend
      exact ⟨by simpa using hcommitting, by simp; omega, rfl⟩
    next hmore =>
      cases hend
      refine ⟨by simpa using hcommitting, by simp; omega, ?_⟩
      simp only [Bool.not_eq_true] at hcommitting
      rw [← hcommitting]

end Log
end Xv6
