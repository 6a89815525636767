import Xv6.Cpu.Spinlock
import Xv6.Lib.Run

/-!
# Kernel threads on several CPUs

Each CPU runs the thread of its scheduler or the kernel thread of a process.  The
threads take and release spinlocks, take interrupts and switch.  The steps are those of
one CPU between two moments at which another CPU can interfere, or at which an
interrupt can arrive.

Main definitions:

- {lit}`Frame`: the places in `push_off`, `acquire`, `release` and `sched` at which a
  thread can be interrupted or switched away from.
- {lit}`step`: one step of one CPU.
- {lit}`Balanced`: what the callers of these functions promise.
-/

namespace Xv6
namespace Threads

/-! ## States -/

/-- Spinlocks: the `p->lock` of each process, and all others. -/
inductive Lock (T L : Type) where
  | proc (t : T)
  | other (l : L)
deriving DecidableEq

/-- Kernel threads: one of each process, and the scheduler of each CPU. -/
inductive Thread (C T : Type) where
  | proc (t : T)
  | sched (c : C)
deriving DecidableEq

/-- What a thread has left open on its stack. -/
inductive Frame (T L : Type) where
  /-- In `push_off`, called by `acquire(lk)` if there is a lock, with the result of `intr_get`. -/
  | reading (old : Bool) (lk : Option (Lock T L))
  /-- In `acquire`, at the atomic swap. -/
  | spinning (lk : Lock T L)
  /-- At the call of `pop_off`. -/
  | popping
  /-- In `sched`, switched out, with its local variable `intena`. -/
  | switched (intena : Bool)
  /-- In an interrupt handler, which has interrupted the frames below. -/
  | trap

/-- A kernel thread.  The last two fields are histories, which no step reads: the number
of its `push_off` calls that are not yet matched, and whether interrupts were enabled
when it last made the outermost of them. -/
structure Kthread (T L : Type) where
  frames : List (Frame T L)
  held : List (Lock T L)
  pushes : Nat
  depth : Nat
  before : Option Bool

/-- `p->state`, as far as the scheduler tells the states apart. -/
inductive Procstate where
  | waiting
  | runnable
  | running
deriving DecidableEq

structure State (C T L : Type) where
  cpu : C → Cpu
  cur : C → Thread C T
  thread : Thread C T → Kthread T L
  lock : Lock T L → Option C
  state : T → Procstate
  panic : Option String

variable {C T L : Type}

/-- A process that has never run: its context leads to `forkret`. -/
def forkret : Kthread T L where
  frames := []
  held := []
  pushes := 0
  depth := 0
  before := none

/-- Every CPU at the start of `scheduler`, with any state of its interrupts. -/
def boot (intena intr : C → Bool) : State C T L where
  cpu := fun c => ⟨0, intena c, intr c⟩
  cur := .sched
  thread := fun _ => forkret
  lock := fun _ => none
  state := fun _ => .waiting
  panic := none

/-! ## Steps -/

inductive Act (C T L : Type) where
  /-- The call of `intr_get` in `push_off`, made by `acquire` if there is a lock. -/
  | intrGet (c : C) (lk : Option (Lock T L))
  /-- The rest of `push_off`, and in `acquire` the test of `holding`. -/
  | pushOff (c : C)
  /-- The atomic swap of `acquire` that finds the lock free. -/
  | take (c : C)
  /-- `release` up to its call of `pop_off`. -/
  | release (c : C) (lk : Lock T L)
  /-- A call of `pop_off` outside `release`. -/
  | callPopOff (c : C)
  | popOff (c : C)
  | intrOn (c : C)
  | intrOff (c : C)
  /-- An interrupt. -/
  | trap (c : C)
  /-- The end of the handler. -/
  | sret (c : C)
  /-- `sched`, up to the return of `swtch` in the scheduler of the CPU. -/
  | sched (c : C) (st : Procstate)
  /-- The last assignment of `sched`. -/
  | resume (c : C)
  /-- `swtch` in the scheduler. -/
  | run (c : C) (t : T)
  /-- `wakeup`, `kill` and `fork` make a process runnable. -/
  | ready (c : C) (t : T)
  /-- `allocproc` gives the process slot a new thread. -/
  | allocproc (c : C) (t : T)

namespace Kthread

/-- A thread that is in none of the modelled functions, perhaps in a handler. -/
def free (k : Kthread T L) : Bool :=
  match k.frames with
  | [] | .trap :: _ => true
  | _ => false

/-- The thread after a `push_off` that has found the CPU in state `u`. -/
def pushed (k : Kthread T L) (u : Cpu) : Kthread T L :=
  { k with
    depth := k.depth + 1
    before := if u.noff = 0 then some u.intr else k.before }

end Kthread

namespace State

/-- The thread of a CPU. -/
def on (s : State C T L) (c : C) : Kthread T L := s.thread (s.cur c)

def fail (s : State C T L) (msg : String) : State C T L :=
  { s with panic := some msg }

variable [DecidableEq C] [DecidableEq T] [DecidableEq L]

/-- Change a CPU and its thread. -/
def put (s : State C T L) (c : C) (u : Cpu) (k : Kthread T L) : State C T L :=
  { s with
    cpu := Function.update s.cpu c u
    thread := Function.update s.thread (s.cur c) k }

def setLock (s : State C T L) (lk : Lock T L) (owner : Option C) : State C T L :=
  { s with lock := Function.update s.lock lk owner }

/-- `swtch`.  The lock of process `t` and its open `push_off` go to the next thread. -/
def swtch (s : State C T L) (c : C) (t : T) (next : Thread C T) (st : Procstate) : State C T L :=
  let prev := s.cur c
  let thread := Function.update s.thread prev
    { s.thread prev with held := [], depth := (s.thread prev).depth - 1 }
  { s with
    cur := Function.update s.cur c next
    thread := Function.update thread next
      { thread next with held := [.proc t], depth := (thread next).depth + 1 }
    state := Function.update s.state t st }

end State

open State

variable [DecidableEq C] [DecidableEq T] [DecidableEq L]

/-- `push_off` after `intr_get`, for `acquire(lk)` with the test of `holding`. -/
def pushOffStep (s : State C T L) (c : C) (old : Bool) (lk : Option (Lock T L))
    (rest : List (Frame T L)) : State C T L :=
  let k := (s.on c).pushed (s.cpu c)
  let u := (s.cpu c).pushOff old
  match lk with
  | none => s.put c u { k with frames := rest, pushes := k.pushes + 1 }
  | some lk =>
    if s.lock lk = some c then s.fail "acquire"
    else s.put c u { k with frames := .spinning lk :: rest }

/-- `release` up to its call of `pop_off`. -/
def releaseStep (s : State C T L) (c : C) (lk : Lock T L) : State C T L :=
  let k := s.on c
  if s.lock lk = some c then
    (s.put c (s.cpu c) { k with
      frames := .popping :: k.frames, held := k.held.erase lk }).setLock lk none
  else s.fail "release"

/-- `pop_off`. -/
def popOffStep (s : State C T L) (c : C) (rest : List (Frame T L)) : State C T L :=
  let k := s.on c
  match (s.cpu c).popOff with
  | .ok u => s.put c u { k with frames := rest, depth := k.depth - 1 }
  | .error msg => s.fail msg

/-- `sched` of process `t`, whose callers have set `p->state`. -/
def schedStep (s : State C T L) (c : C) (t : T) (st : Procstate) : State C T L :=
  let k := s.on c
  match (s.cpu c).schedPanic (s.lock (.proc t) = some c) (st = .running) with
  | some msg => s.fail msg
  | none =>
    (s.put c (s.cpu c) { k with frames := .switched (s.cpu c).intena :: k.frames }).swtch c t
      (.sched c) st

/-- One step of a CPU. -/
def advance (s : State C T L) : Act C T L → Option (State C T L)
  | .intrGet c lk =>
    let k := s.on c
    if k.free then
      some (s.put c (s.cpu c) { k with frames := .reading (s.cpu c).intr lk :: k.frames })
    else none
  | .pushOff c =>
    match (s.on c).frames with
    | .reading old lk :: rest => some (pushOffStep s c old lk rest)
    | _ => none
  | .take c =>
    let k := s.on c
    match k.frames with
    | .spinning lk :: rest =>
      if s.lock lk = none then
        some ((s.put c (s.cpu c) { k with frames := rest, held := lk :: k.held }).setLock lk c)
      else none
    | _ => none
  | .release c lk => if (s.on c).free then some (releaseStep s c lk) else none
  | .callPopOff c =>
    let k := s.on c
    if k.free then
      some (s.put c (s.cpu c) { k with frames := .popping :: k.frames, pushes := k.pushes - 1 })
    else none
  | .popOff c =>
    match (s.on c).frames with
    | .popping :: rest => some (popOffStep s c rest)
    | _ => none
  | .intrOn c =>
    if (s.on c).free then some (s.put c { s.cpu c with intr := true } (s.on c)) else none
  | .intrOff c =>
    if (s.on c).free then some (s.put c { s.cpu c with intr := false } (s.on c)) else none
  | .trap c =>
    let k := s.on c
    if (s.cpu c).intr = true then
      some (s.put c { s.cpu c with intr := false } { k with frames := .trap :: k.frames })
    else none
  | .sret c =>
    let k := s.on c
    match k.frames with
    | .trap :: rest => some (s.put c { s.cpu c with intr := true } { k with frames := rest })
    | _ => none
  | .sched c st =>
    match s.cur c with
    | .proc t => if (s.on c).free then some (schedStep s c t st) else none
    | .sched _ => none
  | .resume c =>
    let k := s.on c
    match k.frames with
    | .switched i :: rest => some (s.put c { s.cpu c with intena := i } { k with frames := rest })
    | _ => none
  | .run c t =>
    match s.cur c with
    | .proc _ => none
    | .sched _ =>
      if (s.on c).frames.isEmpty ∧ (s.on c).held = [.proc t] ∧ (s.on c).pushes = 0 ∧
          s.state t = .runnable then
        some (s.swtch c t (.proc t) .running)
      else none
  | .ready c t =>
    if .proc t ∈ (s.on c).held ∧ s.state t = .waiting then
      some { s with state := Function.update s.state t .runnable }
    else none
  | .allocproc c t =>
    if .proc t ∈ (s.on c).held ∧ s.state t = .waiting then
      some { s with thread := Function.update s.thread (.proc t) forkret }
    else none

/-- One step.  A panic stops the machine. -/
def step (s : State C T L) (a : Act C T L) : Option (State C T L) :=
  if s.panic = none then advance s a else none

/-- The promises of the threads: they acquire no lock that they hold, release what they
have acquired, call `intr_on` and `intr_off` and leave handlers with no `push_off` open,
and call `sched` with `p->lock` alone and after a change of `p->state`. -/
def Balanced (s : State C T L) : Act C T L → Prop
  | .intrGet c lk => ∀ l ∈ lk, l ∉ (s.on c).held
  | .release c lk => lk ∈ (s.on c).held
  | .callPopOff c => 0 < (s.on c).pushes
  | .intrOn c | .intrOff c | .sret c => (s.on c).depth = 0
  | .sched c st =>
    match s.cur c with
    | .proc t => (s.on c).held = [.proc t] ∧ (s.on c).pushes = 0 ∧ st ≠ .running
    | .sched _ => True
  | _ => True

/-- The rule is decidable. -/
instance (s : State C T L) (a : Act C T L) : Decidable (Balanced s a) := by
  unfold Balanced
  split <;> try split
  all_goals infer_instance

end Threads
end Xv6
