import Mathlib.Tactic
import Xv6.Pipe.Channel

/-!
# What the calls on a pipe report

A ledger counts, for the call that each process is in, how far the steps of the process
have moved the two counters of the pipe: the bytes that the call has appended to the
pipe and the bytes that it has removed.  It also notes whether any of the call's tests
for a full buffer has found room.

Main results:

- Theorem {lit}`Balanced.step`: while a call goes on, its counts are the loop variable
  of the call.
- Theorem {lit}`call_accounts_iff`: a call reports what it has moved, unless it is
  refused on a full buffer after it has found room, or takes a byte it cannot copy out.
- Theorem {lit}`calls_lose_bytes`: both functions can do so.
-/

namespace Xv6
namespace PipeIo

open Lib State Function

/-! ## The ledger -/

/-- The call is about to test `pi->nwrite == pi->nread + PIPESIZE`. -/
def Call.tests : Call → Bool
  | .writeFor _ n i => decide (i < n)
  | _ => false

/-- The pipe with the bytes appended and removed by the last call of each process, and
whether one of the call's tests has found the buffer not full. -/
structure Ledger where
  pipe : State
  appended : Nat → Nat
  removed : Nat → Nat
  room : Nat → Bool

namespace Ledger

/-- A ledger with no entries. -/
def blank (s : State) : Ledger where
  pipe := s
  appended := fun _ => 0
  removed := fun _ => 0
  room := fun _ => false

/-- A call begins. -/
def reset (t : Ledger) (p : Nat) (s' : State) : Ledger where
  pipe := s'
  appended := update t.appended p 0
  removed := update t.removed p 0
  room := update t.room p false

/-- A step of `p` to the state `s'` is charged to its call. -/
def charge (t : Ledger) (p : Nat) (s' : State) : Ledger where
  pipe := s'
  appended := update t.appended p
    (t.appended p + ahead (2 ^ 32) t.pipe.nwrite s'.nwrite)
  removed := update t.removed p (t.removed p + ahead (2 ^ 32) t.pipe.nread s'.nread)
  room := update t.room p
    (t.room p || ((t.pipe.call p).tests && !decide t.pipe.full))

/-- The entries that an action to the state `s'` makes. -/
def note (t : Ledger) (s' : State) : Act → Ledger
  | .write p _ _ => t.reset p s'
  | .read p _ _ => t.reset p s'
  | .close p _ => t.reset p s'
  | .run p => t.charge p s'
  | .kill _ => { t with pipe := s' }

/-- One step of the processes, with its entries. -/
def step (t : Ledger) (a : Act) : Option Ledger :=
  (PipeIo.step t.pipe a).map fun s' => t.note s' a

/-- The count that the return value of a call is about. -/
def moved (t : Ledger) (p : Nat) : Call → Nat
  | .write _ _ | .writeFor _ _ _ | .writeSleep _ _ _ => t.appended p
  | .read _ _ | .readWait _ _ | .readSleep _ _ | .readFor _ _ _ => t.removed p
  | .idle _ | .close _ => 0

end Ledger

/-- A return value accounts for the bytes moved. -/
def Accounts (moved : Nat) (ret : Int) : Prop :=
  (0 ≤ ret → (moved : Int) = ret) ∧ (ret = -1 → moved = 0)

/-- The next step of `p` does not give up in the middle: a write that is refused on a full
buffer has found the buffer full at each of its tests, and the byte that a read takes can
be copied out. -/
def Served (t : Ledger) (p : Nat) : Prop :=
  match t.pipe.call p with
  | .writeFor _ n i => i < n → t.pipe.full →
    t.pipe.readopen = false ∨ t.pipe.killed p = true → t.room p = false
  | .readFor dst n i => i < n → t.pipe.nread ≠ t.pipe.nwrite → dst i = true
  | _ => True

/-- A pipe that no process is in a call on, with any contents. -/
structure Quiet (s : State) : Prop where
  read_lt : s.nread < 2 ^ 32
  write_lt : s.nwrite < 2 ^ 32
  idle : ∀ p, ∃ ret, s.call p = .idle ret

/-! ## Steps of one process -/

/-- The number of offsets taken. -/
theorem length_taken (src : Nat → Option UInt8) (i : Nat) : (taken src i).length = i := by
  simp [taken]

/-- A count accounts for itself. -/
theorem accounts_self (i : Nat) : Accounts i i :=
  ⟨fun _ => rfl, fun h => by omega⟩

/-- A counter that has not moved. -/
theorem ahead_self {m w : Nat} (hw : w < m) : ahead m w w = 0 :=
  (ahead_eq_zero hw hw).mpr rfl

/-- A counter that has moved by one. -/
theorem ahead_succ {w : Nat} (hw : w < 2 ^ 32) : ahead (2 ^ 32) w (uint (w + 1)) = 1 := by
  have hpush := ahead_push hw hw (by rw [ahead_self hw]; decide)
  rw [ahead_self hw] at hpush
  exact hpush

section Steps

variable {s s' : State} {p : Nat}

/-- What a step of `p` has moved, added to what its call had moved before. -/
structure Moves (s s' : State) (p : Nat) : Prop where
  read_lt : s'.nread < 2 ^ 32
  write_lt : s'.nwrite < 2 ^ 32
  others : ∀ q, q ≠ p → s'.call q = s.call q
  -- the call goes on
  appends : (∀ ret, s'.call p ≠ .idle ret) →
    (s.call p).progress.length + ahead (2 ^ 32) s.nwrite s'.nwrite = (s'.call p).progress.length
  removes : (∀ ret, s'.call p ≠ .idle ret) →
    (s.call p).fetched + ahead (2 ^ 32) s.nread s'.nread = (s'.call p).fetched
  finds : (∀ ret, s'.call p ≠ .idle ret) →
    (0 < (s'.call p).progress.length ↔
      0 < (s.call p).progress.length ∨ (s.call p).tests = true ∧ ¬s.full)

/-- A step that goes on without moving a byte. -/
theorem Moves.still (hr : s.nread < 2 ^ 32) (hw : s.nwrite < 2 ^ 32) {c : Call}
    (hread : s'.nread = s.nread) (hwrite : s'.nwrite = s.nwrite)
    (hcall : s'.call = update s.call p c)
    (hprogress : (s.call p).progress.length = c.progress.length)
    (hfetched : (s.call p).fetched = c.fetched) (htests : (s.call p).tests = true → s.full) :
    Moves s s' p where
  read_lt := hread ▸ hr
  write_lt := hwrite ▸ hw
  others q hq := by rw [hcall, update_of_ne hq]
  appends _ := by rw [hcall, update_self, hwrite, ahead_self hw, hprogress, Nat.add_zero]
  removes _ := by rw [hcall, update_self, hread, ahead_self hr, hfetched, Nat.add_zero]
  finds _ := by
    rw [hcall, update_self, ← hprogress]
    exact ⟨Or.inl, fun h => h.elim id fun ⟨htest, hroom⟩ => absurd (htests htest) hroom⟩

/-- A step with which the call returns. -/
theorem Moves.leave {ret : Int} (hr : s'.nread < 2 ^ 32) (hw : s'.nwrite < 2 ^ 32)
    (hcall : s'.call = update s.call p (.idle ret)) : Moves s s' p where
  read_lt := hr
  write_lt := hw
  others q hq := by rw [hcall, update_of_ne hq]
  appends hgo := absurd (by rw [hcall, update_self]) (hgo ret)
  removes hgo := absurd (by rw [hcall, update_self]) (hgo ret)
  finds hgo := absurd (by rw [hcall, update_self]) (hgo ret)

/-- The step lemma for one process: an iteration of `pipewrite` appends a byte exactly if
its test finds room, and one of `piperead` removes at most one byte. -/
theorem moves_runStep (hr : s.nread < 2 ^ 32) (hw : s.nwrite < 2 ^ 32)
    (hrun : runStep s p = some s') : Moves s s' p := by
  have hruns := runs_of_runStep hrun
  generalize hc : s.call p = c at hruns
  cases hruns with
  | acquire hentry =>
    obtain ⟨-, hprogress, hfetched, hwas, -, -⟩ := Call.of_entry hentry
    refine .still hr hw rfl rfl rfl (by rw [hc, hprogress]) (by rw [hc, hfetched, hwas]) ?_
    rw [hc]
    cases c <;> cases hentry <;> exact nofun
  | refuse | written | killed | delivered => exact .leave hr hw rfl
  | fault => exact .leave (uint_lt _) hw rfl
  | @close writable => cases writable <;> exact .leave hr hw rfl
  | writeSleep hfull => exact .still hr hw rfl rfl rfl (by simp [hc]) (by simp [hc]) fun _ => hfull
  | readSleep | fetch =>
    exact .still hr hw rfl rfl rfl (by simp [hc]) (by simp [hc]) (by simp [hc, Call.tests])
  | put hi hroom =>
    refine ⟨hr, uint_lt _, fun q hq => update_of_ne hq _ _, fun _ => ?_, fun _ => ?_, fun _ => ?_⟩
    · simpa [hc, length_taken] using ahead_succ hw
    · simpa [hc] using ahead_self hr
    · simp [hc, Call.tests, length_taken, hi, hroom]
  | take =>
    refine ⟨uint_lt _, hw, fun q hq => update_of_ne hq _ _, fun _ => ?_, fun _ => ?_, fun _ => ?_⟩
    · simpa [hc] using ahead_self hw
    · simpa [hc] using ahead_succ hr
    · simp [hc, Call.tests]

/-- A process that goes on is in a call. -/
theorem busy_of_runStep (hrun : runStep s p = some s') (ret : Int) : s.call p ≠ .idle ret := by
  intro hidle
  rw [runStep, hidle] at hrun
  cases hrun

end Steps

/-! ## Runs -/

/-- The counts of the calls that are going on. -/
structure Balanced (t : Ledger) : Prop where
  read_lt : t.pipe.nread < 2 ^ 32
  write_lt : t.pipe.nwrite < 2 ^ 32
  appended : ∀ p, (∀ ret, t.pipe.call p ≠ .idle ret) →
    t.appended p = (t.pipe.call p).progress.length
  removed : ∀ p, (∀ ret, t.pipe.call p ≠ .idle ret) → t.removed p = (t.pipe.call p).fetched
  room : ∀ p, (∀ ret, t.pipe.call p ≠ .idle ret) →
    (t.room p = true ↔ 0 < (t.pipe.call p).progress.length)

namespace Balanced

variable {t t' : Ledger} {s' : State} {p : Nat}

/-- At first no call is going on. -/
theorem blank {s : State} (h : Quiet s) : Balanced (.blank s) where
  read_lt := h.read_lt
  write_lt := h.write_lt
  appended p hgo := absurd (h.idle p).choose_spec (hgo _)
  removed p hgo := absurd (h.idle p).choose_spec (hgo _)
  room p hgo := absurd (h.idle p).choose_spec (hgo _)

/-- A call begins with empty counts. -/
theorem reset {c : Call} (h : Balanced t) (hstart : start t.pipe p c = some s')
    (hprogress : c.progress = []) (hfetched : c.fetched = 0) : Balanced (t.reset p s') := by
  unfold start at hstart
  split at hstart
  next =>
    cases hstart
    have hcall : ∀ q, q ≠ p → (t.pipe.setCall p c).call q = t.pipe.call q :=
      fun q hq => update_of_ne hq _ _
    refine ⟨h.read_lt, h.write_lt, fun q hgo => ?_, fun q hgo => ?_, fun q hgo => ?_⟩ <;>
      obtain rfl | hq := eq_or_ne q p
    · simp [Ledger.reset, -Call.progress, hprogress]
    · simp only [Ledger.reset, hcall q hq, update_of_ne hq] at hgo ⊢
      exact h.appended q hgo
    · simp [Ledger.reset, -Call.fetched, hfetched]
    · simp only [Ledger.reset, hcall q hq, update_of_ne hq] at hgo ⊢
      exact h.removed q hgo
    · simp [Ledger.reset, -Call.progress, hprogress]
    · simp only [Ledger.reset, hcall q hq, update_of_ne hq] at hgo ⊢
      exact h.room q hgo
  next => cases hstart

/-- A step of a call keeps the counts. -/
theorem charge (h : Balanced t) (hrun : runStep t.pipe p = some s') :
    Balanced (t.charge p s') := by
  have hmoves := moves_runStep h.read_lt h.write_lt hrun
  have hbusy := busy_of_runStep hrun
  refine ⟨hmoves.read_lt, hmoves.write_lt, fun q hgo => ?_, fun q hgo => ?_, fun q hgo => ?_⟩ <;>
    obtain rfl | hq := eq_or_ne q p
  · simp only [Ledger.charge, update_self] at hgo ⊢
    rw [h.appended q hbusy]
    exact hmoves.appends hgo
  · simp only [Ledger.charge, hmoves.others q hq, update_of_ne hq] at hgo ⊢
    exact h.appended q hgo
  · simp only [Ledger.charge, update_self] at hgo ⊢
    rw [h.removed q hbusy]
    exact hmoves.removes hgo
  · simp only [Ledger.charge, hmoves.others q hq, update_of_ne hq] at hgo ⊢
    exact h.removed q hgo
  · simp only [Ledger.charge, update_self] at hgo ⊢
    rw [hmoves.finds hgo, ← h.room q hbusy]
    simp
  · simp only [Ledger.charge, hmoves.others q hq, update_of_ne hq] at hgo ⊢
    exact h.room q hgo

/-- The step lemma. -/
theorem step {a : Act} (h : Balanced t) (hstep : t.step a = some t') : Balanced t' := by
  obtain ⟨s', hs', rfl⟩ := Option.map_eq_some_iff.mp hstep
  cases a with
  | write p src n => exact h.reset hs' rfl rfl
  | read p dst n => exact h.reset hs' rfl rfl
  | close p writable => exact h.reset hs' rfl rfl
  | run p =>
    obtain ⟨-, hs'⟩ := Option.ite_none_right_eq_some.mp hs'
    exact h.charge hs'
  | kill p =>
    cases hs'
    exact { h with }

end Balanced

/-! ## Return values -/

section Returns

variable {s s' : State} {p : Nat} {ret : Int}

/-- The bytes that a call has moved when it returns, by the counters of the pipe. -/
def finalCount (s s' : State) (p : Nat) : Nat :=
  match s.call p with
  | .write _ _ | .writeFor _ _ _ | .writeSleep _ _ _ =>
    (s.call p).progress.length + ahead (2 ^ 32) s.nwrite s'.nwrite
  | .read _ _ | .readWait _ _ | .readSleep _ _ | .readFor _ _ _ =>
    (s.call p).fetched + ahead (2 ^ 32) s.nread s'.nread
  | .idle _ | .close _ => 0

/-- What the calls report, by the ledger before the step with which they return. -/
theorem Balanced.runStep_accounts {t : Ledger} (h : Balanced t)
    (hrun : runStep t.pipe p = some s') (hret : s'.call p = .idle ret) :
    Accounts (finalCount t.pipe s' p) ret ↔ Served t p := by
  have hroom := h.room p (busy_of_runStep hrun)
  have hself := ahead_self h.write_lt
  have hself' := ahead_self h.read_lt
  have hruns := runs_of_runStep hrun
  unfold finalCount Served
  generalize hc : t.pipe.call p = c at hruns hroom
  -- a call has stored a byte exactly if a test has found room
  have hzero : ∀ {src n i}, c = .writeFor src n i → (t.room p = false ↔ i = 0) := by
    rintro src n i rfl
    rw [Call.progress, length_taken] at hroom
    rw [← Bool.not_eq_true, hroom, Nat.pos_iff_ne_zero, not_not]
  cases hruns with
  | acquire hentry => exact absurd hret (acquire_not_idle hrun (by rw [hc]; exact hentry))
  | writeSleep | put | readSleep | fetch | take => simp at hret
  | refuse hi hfull hgive =>
    -- the write gives up with -1, whatever it has stored
    obtain rfl : -1 = ret := by simpa using hret
    simp [-Nat.reducePow, Accounts, hself, length_taken, hzero rfl, hi, hfull, hgive]
  | @written src n i hend =>
    obtain rfl : (i : Int) = ret := by simpa using hret
    change Accounts ((taken src i).length + ahead (2 ^ 32) t.pipe.nwrite t.pipe.nwrite) i ↔ _
    rw [hself, length_taken]
    exact iff_of_true (accounts_self i) fun hi hfull => absurd hfull (hend hi)
  | killed =>
    obtain rfl : -1 = ret := by simpa using hret
    simp [-Nat.reducePow, Accounts, hself']
  | @delivered dst n i hend =>
    obtain rfl : (i : Int) = ret := by simpa using hret
    change Accounts (i + ahead (2 ^ 32) t.pipe.nread t.pipe.nread) i ↔ _
    rw [hself']
    exact iff_of_true (accounts_self i) fun hi hne => absurd (hend hi) hne
  | @fault dst n i hi hne hfault =>
    -- the counter has been advanced before the copy fails
    obtain rfl : (i : Int) = ret := by simpa using hret
    change Accounts (i + ahead (2 ^ 32) t.pipe.nread (uint (t.pipe.nread + 1))) i ↔ _
    rw [ahead_succ h.read_lt]
    refine iff_of_false (fun h => ?_) fun h => hfault (h hi hne)
    have := h.1 (Int.natCast_nonneg i)
    omega
  | close =>
    obtain rfl : 0 = ret := by simpa using hret
    simp [Accounts]

/-- The ledger has the final count. -/
theorem Balanced.moved_charge {t : Ledger} (h : Balanced t) (hrun : runStep t.pipe p = some s') :
    (t.charge p s').moved p (t.pipe.call p) = finalCount t.pipe s' p := by
  have happended := h.appended p (busy_of_runStep hrun)
  have hremoved := h.removed p (busy_of_runStep hrun)
  unfold finalCount
  cases hc : t.pipe.call p <;> rw [hc] at happended hremoved <;>
    simp [Ledger.moved, Ledger.charge, happended, hremoved]

end Returns

/-- Return values of calls on a pipe.  On a pipe with any contents, with processes that start
calls with any buffers, are killed and close the ends at any moment: a call that returns
accounts for the bytes that it has moved exactly if, where a write is refused on a full
buffer, all its earlier tests found the buffer full as well, and where a read takes a byte,
it can be copied out. -/
theorem call_accounts_iff {s₀ : State} {t t' : Ledger} {p : Nat} {ret : Int} (hquiet : Quiet s₀)
    (hrun : Run Ledger.step (fun _ _ => True) (.blank s₀) t) (hstep : t.step (.run p) = some t')
    (hret : t'.pipe.call p = .idle ret) :
    Accounts (t'.moved p (t.pipe.call p)) ret ↔ Served t p := by
  have h : Balanced t := hrun.invariant (.blank hquiet) fun _ _ _ ht _ hnext => ht.step hnext
  obtain ⟨s', hs', rfl⟩ := Option.map_eq_some_iff.mp hstep
  obtain ⟨-, hs'⟩ := Option.ite_none_right_eq_some.mp hs'
  change Accounts ((t.charge p s').moved p (t.pipe.call p)) ret ↔ _
  rw [h.moved_charge hs']
  exact h.runStep_accounts hs' hret

/-- A new pipe is quiet. -/
theorem quiet_pipealloc (data : Nat → UInt8) : Quiet (pipealloc data) :=
  ⟨Nat.two_pow_pos 32, Nat.two_pow_pos 32, fun _ => ⟨0, rfl⟩⟩

/-- A write of one byte returns 1. -/
theorem call_accounts_iff_one_byte : ∃ t t' : Ledger,
    Run Ledger.step (fun _ _ => True) (.blank (pipealloc fun _ => 0)) t ∧
      t.step (.run 0) = some t' ∧ t'.pipe.call 0 = .idle 1 ∧
      (Accounts (t'.moved 0 (t.pipe.call 0)) 1 ↔ Served t 0) := by
  have hblank : Run Ledger.step (fun _ _ => True) (.blank (pipealloc fun _ => 0)) _ := .refl
  have hwrite := hblank.snoc (a := .write 0 (fun _ => some 7) 1) trivial
    (Eq.refl (Ledger.step _ _))
  have hlock := hwrite.snoc (a := .run 0) trivial (Eq.refl (Ledger.step _ _))
  have hput := hlock.snoc (a := .run 0) trivial (Eq.refl (Ledger.step _ _))
  exact ⟨_, _, hput, Eq.refl (Ledger.step _ _), rfl,
    call_accounts_iff (quiet_pipealloc _) hput (Eq.refl (Ledger.step _ _)) rfl⟩

/-- Both functions can lose count.  A write of 513 bytes stores 512, waits, finds the read end
closed and returns -1; and a read with a buffer that is not mapped removes a byte and returns
0. -/
theorem calls_lose_bytes :
    (∃ t t' : Ledger, Run Ledger.step (fun _ _ => True) (.blank (pipealloc fun _ => 0)) t ∧
      t.step (.run 0) = some t' ∧ t'.pipe.call 0 = .idle (-1) ∧ t'.appended 0 = 512 ∧
      ¬Accounts (t'.appended 0) (-1)) ∧
    ∃ t t' : Ledger, Run Ledger.step (fun _ _ => True) (.blank (pipealloc fun _ => 0)) t ∧
      t.step (.run 1) = some t' ∧ t'.pipe.call 1 = .idle 0 ∧ t'.removed 1 = 1 ∧
      ¬Accounts (t'.removed 1) 0 := by
  constructor
  · have hexec : (exec Ledger.step (fun _ _ => True) (.blank (pipealloc fun _ => 0))
        ([.write 0 (fun _ => some 7) 513] ++ List.replicate 514 (.run 0) ++
          [.close 1 false, .run 1, .run 0])).map
        (fun t => (t.step (.run 0)).map fun t' => ((t'.pipe.call 0).result, t'.appended 0)) =
          some (some (some (-1), 512)) := by
      decide +kernel
    obtain ⟨t, hrun, hlast⟩ := exec_reaches hexec
    obtain ⟨t', hstep, hobs⟩ := Option.map_eq_some_iff.mp hlast
    obtain ⟨hresult, hcount⟩ := Prod.mk.inj hobs
    refine ⟨t, t', hrun, hstep, Call.eq_idle_of_result hresult, hcount, fun h => ?_⟩
    exact absurd (hcount.symm.trans (h.2 rfl)) (by decide)
  · have hexec : (exec Ledger.step (fun _ _ => True) (.blank (pipealloc fun _ => 0))
        [.write 0 (fun _ => some 7) 1, .run 0, .run 0, .run 0,
          .read 1 (fun _ => false) 1, .run 1, .run 1]).map
        (fun t => (t.step (.run 1)).map fun t' => ((t'.pipe.call 1).result, t'.removed 1)) =
          some (some (some 0, 1)) := by
      decide +kernel
    obtain ⟨t, hrun, hlast⟩ := exec_reaches hexec
    obtain ⟨t', hstep, hobs⟩ := Option.map_eq_some_iff.mp hlast
    obtain ⟨hresult, hcount⟩ := Prod.mk.inj hobs
    refine ⟨t, t', hrun, hstep, Call.eq_idle_of_result hresult, hcount, fun h => ?_⟩
    rw [hcount] at h
    exact absurd (h.1 le_rfl) (by decide)

end PipeIo
end Xv6
