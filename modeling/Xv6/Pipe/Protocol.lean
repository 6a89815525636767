import Mathlib.Logic.Function.Basic
import Xv6.Lib.Run
import Xv6.Lib.Wrapping
import Xv6.Param

/-!
# Processes on one pipe

`pipewrite`, `piperead` and `pipeclose` as sequences of steps of the calling
process.  A process that holds `pi->lock` is alone in the pipe, but can be killed at
any moment; `sleep` gives the lock up and the process to the scheduler at once.

Main definitions:

- {lit}`Call`: the places in the three functions.
- {lit}`step`: one iteration of one loop, or one call of `pipeclose`.

Main result:

- Theorem {lit}`runs_of_runStep`: what a step of a call can do.
-/

namespace Xv6

open Function

/-- Size of a pipe's buffer. -/
def pipesize : Nat := 512

namespace PipeIo

/-! ## States -/

/-- The two addresses that processes sleep on, `&pi->nread` and `&pi->nwrite`. -/
inductive Chan where
  | nread
  | nwrite
deriving DecidableEq

/-- How far a process has come.  User memory is given by what `copyin` finds at each
offset of the buffer, `none` being a fault, and by whether `copyout` succeeds there. -/
inductive Call where
  /-- Not in a call; `ret` is what the last one has returned. -/
  | idle (ret : Int)
  /-- `pipewrite` before it has the lock. -/
  | write (src : Nat → Option UInt8) (n : Int)
  /-- `pipewrite` with the lock, at the head of its loops. -/
  | writeFor (src : Nat → Option UInt8) (n : Int) (i : Nat)
  /-- `pipewrite` in `sleep(&pi->nwrite, &pi->lock)`. -/
  | writeSleep (src : Nat → Option UInt8) (n : Int) (i : Nat)
  /-- `piperead` before it has the lock. -/
  | read (dst : Nat → Bool) (n : Int)
  /-- `piperead` with the lock, at its first loop. -/
  | readWait (dst : Nat → Bool) (n : Int)
  /-- `piperead` in `sleep(&pi->nread, &pi->lock)`. -/
  | readSleep (dst : Nat → Bool) (n : Int)
  /-- `piperead` with the lock, at its second loop. -/
  | readFor (dst : Nat → Bool) (n : Int) (i : Nat)
  /-- `pipeclose` before it has the lock. -/
  | close (writable : Bool)

/-- What a call has returned. -/
def Call.result : Call → Option Int
  | .idle ret => some ret
  | _ => none

/-- A call with a result has returned it. -/
theorem Call.eq_idle_of_result {c : Call} {ret : Int} (h : c.result = some ret) :
    c = .idle ret := by
  cases c with
  | idle r => exact congrArg Call.idle (Option.some.inj h)
  | _ => cases h

/-- The places that hold the lock. -/
@[simp]
def Call.locked : Call → Bool
  | .writeFor _ _ _ | .readWait _ _ | .readFor _ _ _ => true
  | _ => false

/-- The pipe, its lock and its users.  The last five fields are histories, which no
step reads: the bytes stored and delivered, each with the process that did it; the
bytes that the finished writes of a process have stored and the sum of the values
that its finished reads have returned; and the number of bytes that the holder of the
lock has stored since it took the lock. -/
structure State where
  data : Nat → UInt8
  nread : Nat
  nwrite : Nat
  readopen : Bool
  writeopen : Bool
  freed : Bool
  lock : Option Nat
  asleep : Nat → Option Chan
  killed : Nat → Bool
  call : Nat → Call
  stored : List (Nat × UInt8)
  delivered : List (Nat × UInt8)
  written : Nat → List UInt8
  returned : Nat → Nat
  fresh : Nat

/-- The moves of the processes. -/
inductive Act where
  | write (p : Nat) (src : Nat → Option UInt8) (n : Int)
  | read (p : Nat) (dst : Nat → Bool) (n : Int)
  | close (p : Nat) (writable : Bool)
  /-- The next step of the call that `p` is in. -/
  | run (p : Nat)
  | kill (p : Nat)

/-- `pipealloc`, in a page with arbitrary contents. -/
def pipealloc (data : Nat → UInt8) : State where
  data := data
  nread := 0
  nwrite := 0
  readopen := true
  writeopen := true
  freed := false
  lock := none
  asleep := fun _ => none
  killed := fun _ => false
  call := fun _ => .idle 0
  stored := []
  delivered := []
  written := fun _ => []
  returned := fun _ => 0
  fresh := 0

/-! ## The pieces of the functions -/

namespace State

/-- A process goes to another place. -/
@[simps -fullyApplied]
def setCall (s : State) (p : Nat) (c : Call) : State :=
  { s with call := update s.call p c }

/-- `acquire(&pi->lock)`.  There is no step while another process has the lock. -/
def acquire (s : State) (p : Nat) (c : Call) : Option State :=
  if s.lock = none ∧ s.freed = false then some ({ s with lock := some p }.setCall p c) else none

/-- `release(&pi->lock)`. -/
@[simps -fullyApplied]
def release (s : State) : State :=
  { s with lock := none, fresh := 0 }

/-- `wakeup`. -/
@[simps -fullyApplied]
def wakeup (s : State) (ch : Chan) : State :=
  { s with asleep := fun q => if s.asleep q = some ch then none else s.asleep q }

/-- `sleep(ch, &pi->lock)`, up to the switch to the scheduler. -/
def sleep (s : State) (p : Nat) (ch : Chan) : State :=
  { s with asleep := update s.asleep p (some ch) }.release

/-- The test of `pipewrite`: the buffer is full. -/
def full (s : State) : Prop := s.nwrite = uint (s.nread + pipesize)

/-- The test is decidable. -/
instance (s : State) : Decidable s.full := inferInstanceAs (Decidable (_ = _))

/-- `pi->data[pi->nwrite++ % PIPESIZE] = ch`. -/
@[simps -fullyApplied]
def put (s : State) (p : Nat) (ch : UInt8) : State :=
  { s with
    data := update s.data (s.nwrite % pipesize) ch
    nwrite := uint (s.nwrite + 1)
    stored := s.stored ++ [(p, ch)]
    fresh := s.fresh + 1 }

/-- The byte `pi->data[pi->nread % PIPESIZE]`. -/
def next (s : State) : UInt8 := s.data (s.nread % pipesize)

/-- The increment in `ch = pi->data[pi->nread++ % PIPESIZE]`. -/
@[simps -fullyApplied]
def skip (s : State) : State :=
  { s with nread := uint (s.nread + 1) }

/-- `ch = pi->data[pi->nread++ % PIPESIZE]`, with a successful `copyout`. -/
@[simps -fullyApplied]
def take (s : State) (p : Nat) : State :=
  { s.skip with delivered := s.delivered ++ [(p, s.next)] }

/-- The bytes of the first `i` offsets of a buffer. -/
def taken (src : Nat → Option UInt8) (i : Nat) : List UInt8 :=
  (List.range i).map fun k => (src k).getD 0

/-- Leave `pipewrite`, which has stored `i` bytes. -/
@[simps -fullyApplied]
def leaveWrite (s : State) (p : Nat) (src : Nat → Option UInt8) (i : Nat) (ret : Int) : State :=
  { s.release with
    call := update s.call p (.idle ret)
    written := update s.written p (s.written p ++ taken src i) }

/-- Leave `piperead`; a call that returns -1 adds nothing to the sum. -/
@[simps -fullyApplied]
def leaveRead (s : State) (p : Nat) (ret : Int) : State :=
  { s.release with
    call := update s.call p (.idle ret)
    returned := update s.returned p (s.returned p + ret.toNat) }

/-- The two assignments of `pipeclose` with their wakeups. -/
def closeEnd (s : State) (writable : Bool) : State :=
  if writable then { s with writeopen := false }.wakeup .nread
  else { s with readopen := false }.wakeup .nwrite

end State

open State

/-- One iteration of the loops of `pipewrite`. -/
def writeStep (s : State) (p : Nat) (src : Nat → Option UInt8) (n : Int) (i : Nat) : State :=
  if i < n then
    if s.full then
      if s.readopen = false ∨ s.killed p = true then s.leaveWrite p src i (-1)
      else ((s.wakeup .nread).sleep p .nwrite).setCall p (.writeSleep src n i)
    else
      match src i with
      | none => (s.wakeup .nread).leaveWrite p src i i
      | some ch => (s.put p ch).setCall p (.writeFor src n (i + 1))
  else (s.wakeup .nread).leaveWrite p src i i

/-- One iteration of the first loop of `piperead`. -/
def readWaitStep (s : State) (p : Nat) (dst : Nat → Bool) (n : Int) : State :=
  if s.nread = s.nwrite ∧ s.writeopen = true then
    if s.killed p = true then s.leaveRead p (-1)
    else (s.sleep p .nread).setCall p (.readSleep dst n)
  else s.setCall p (.readFor dst n 0)

/-- One iteration of the second loop of `piperead`. -/
def readStep (s : State) (p : Nat) (dst : Nat → Bool) (n : Int) (i : Nat) : State :=
  if i < n then
    if s.nread = s.nwrite then (s.wakeup .nwrite).leaveRead p i
    else if dst i = true then (s.take p).setCall p (.readFor dst n (i + 1))
    else (s.skip.wakeup .nwrite).leaveRead p i
  else (s.wakeup .nwrite).leaveRead p i

/-- `pipeclose`, which frees the page when both ends are closed. -/
def closeStep (s : State) (p : Nat) (writable : Bool) : Option State :=
  if s.lock = none ∧ s.freed = false then
    let s := s.closeEnd writable
    some ({ s with freed := !s.readopen && !s.writeopen }.setCall p (.idle 0))
  else none

/-- Go on with a call. -/
def runStep (s : State) (p : Nat) : Option State :=
  match s.call p with
  | .idle _ => none
  | .write src n => s.acquire p (.writeFor src n 0)
  | .writeFor src n i => some (writeStep s p src n i)
  | .writeSleep src n i => s.acquire p (.writeFor src n i)
  | .read dst n => s.acquire p (.readWait dst n)
  | .readWait dst n => some (readWaitStep s p dst n)
  | .readSleep dst n => s.acquire p (.readWait dst n)
  | .readFor dst n i => some (readStep s p dst n i)
  | .close writable => closeStep s p writable

/-- Enter a call. -/
def start (s : State) (p : Nat) (c : Call) : Option State :=
  match s.call p with
  | .idle _ => some (s.setCall p c)
  | _ => none

/-- One step.  A process that sleeps has none. -/
def step (s : State) : Act → Option State
  | .write p src n => start s p (.write src n)
  | .read p dst n => start s p (.read dst n)
  | .close p writable => start s p (.close writable)
  | .run p => if s.asleep p = none then runStep s p else none
  | .kill p => some { s with
      killed := update s.killed p true
      asleep := update s.asleep p none }

/-! ## What a step does -/

/-- Where a call goes on with the lock. -/
def Call.entry : Call → Option Call
  | .write src n => some (.writeFor src n 0)
  | .writeSleep src n i => some (.writeFor src n i)
  | .read dst n | .readSleep dst n => some (.readWait dst n)
  | _ => none

/-- The outcomes of the next step of `p`, by the place that it has reached. -/
inductive Runs (s : State) (p : Nat) : Call → State → Prop
  | acquire {c c' : Call} (hentry : c.entry = some c') (hfree : s.lock = none) :
      Runs s p c ({ s with lock := some p }.setCall p c')
  | refuse {src : Nat → Option UInt8} {n : Int} {i : Nat} (hi : i < n) (hfull : s.full)
      (hgive : s.readopen = false ∨ s.killed p = true) :
      Runs s p (.writeFor src n i) (s.leaveWrite p src i (-1))
  | writeSleep {src : Nat → Option UInt8} {n : Int} {i : Nat} (hfull : s.full)
      (hstay : ¬(s.readopen = false ∨ s.killed p = true)) :
      Runs s p (.writeFor src n i)
        (((s.wakeup .nread).sleep p .nwrite).setCall p (.writeSleep src n i))
  | written {src : Nat → Option UInt8} {n : Int} {i : Nat} (hend : i < n → ¬s.full) :
      Runs s p (.writeFor src n i) ((s.wakeup .nread).leaveWrite p src i i)
  | put {src : Nat → Option UInt8} {n : Int} {i : Nat} {ch : UInt8} (hi : i < n)
      (hroom : ¬s.full) (hch : src i = some ch) :
      Runs s p (.writeFor src n i) ((s.put p ch).setCall p (.writeFor src n (i + 1)))
  | killed {dst : Nat → Bool} {n : Int} (hkilled : s.killed p = true) :
      Runs s p (.readWait dst n) (s.leaveRead p (-1))
  | readSleep {dst : Nat → Bool} {n : Int} (hempty : s.nread = s.nwrite ∧ s.writeopen = true) :
      Runs s p (.readWait dst n) ((s.sleep p .nread).setCall p (.readSleep dst n))
  | fetch {dst : Nat → Bool} {n : Int} (hexit : ¬(s.nread = s.nwrite ∧ s.writeopen = true)) :
      Runs s p (.readWait dst n) (s.setCall p (.readFor dst n 0))
  | delivered {dst : Nat → Bool} {n : Int} {i : Nat} (hend : i < n → s.nread = s.nwrite) :
      Runs s p (.readFor dst n i) ((s.wakeup .nwrite).leaveRead p i)
  | take {dst : Nat → Bool} {n : Int} {i : Nat} (hi : i < n) (hne : s.nread ≠ s.nwrite) :
      Runs s p (.readFor dst n i) ((s.take p).setCall p (.readFor dst n (i + 1)))
  | fault {dst : Nat → Bool} {n : Int} {i : Nat} (hi : i < n) (hne : s.nread ≠ s.nwrite)
      (hfault : dst i ≠ true) :
      Runs s p (.readFor dst n i) ((s.skip.wakeup .nwrite).leaveRead p i)
  | close {writable : Bool} {freed : Bool} (hfree : s.lock = none) :
      Runs s p (.close writable) ({ s.closeEnd writable with freed := freed }.setCall p (.idle 0))

/-- Every step has one of the outcomes. -/
theorem runs_of_runStep {s s' : State} {p : Nat} (hrun : runStep s p = some s') :
    Runs s p (s.call p) s' := by
  unfold runStep at hrun
  generalize s.call p = c at hrun ⊢
  cases c with
  | idle ret => cases hrun
  | write src n | writeSleep src n i | read dst n | readSleep dst n =>
    obtain ⟨hfree, ⟨⟩⟩ := Option.ite_none_right_eq_some.mp hrun
    exact .acquire rfl hfree.1
  | writeFor src n i =>
    cases hrun
    unfold writeStep
    split
    next hi =>
      split
      next hfull =>
        split
        next hgive => exact .refuse hi hfull hgive
        next hstay => exact .writeSleep hfull hstay
      next hroom =>
        split
        · exact .written fun _ => hroom
        next ch hch => exact .put hi hroom hch
    next hi => exact .written fun h => absurd h hi
  | readWait dst n =>
    cases hrun
    unfold readWaitStep
    split
    next hempty =>
      split
      next hkilled => exact .killed hkilled
      · exact .readSleep hempty
    next hexit => exact .fetch hexit
  | readFor dst n i =>
    cases hrun
    unfold readStep
    split
    next hi =>
      split
      next hempty => exact .delivered fun _ => hempty
      next hne =>
        split
        · exact .take hi hne
        next hfault => exact .fault hi hne hfault
    next hi => exact .delivered fun h => absurd h hi
  | close writable =>
    obtain ⟨hfree, ⟨⟩⟩ := Option.ite_none_right_eq_some.mp hrun
    exact .close hfree.1

end PipeIo
end Xv6
