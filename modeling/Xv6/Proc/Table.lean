import Mathlib.Tactic
import Xv6.Lib.Run
import Xv6.Param

/-!
# The process table

Processes run `fork`, `kill`, `exit` and `wait` and interleave wherever they do
not hold the spin lock of the slot they work on.  A state of this system is the
table together with the place each process has reached in its system call.

Main definitions:

- {lit}`Proc.freeproc`, {lit}`Proc.kill`, {lit}`Proc.wakeup1`: what the code does to one slot.
- {lit}`Call`: the places at which a process can be interrupted.
- {lit}`step`: one critical section of one process.
-/

namespace Xv6

open Function

/-! ## Slots -/

/-- `enum procstate`. -/
inductive Procstate where
  | unused
  | sleeping
  | runnable
  | running
  | zombie
deriving DecidableEq

/-- What a process sleeps on: a slot of the table, as in `wait`, or any other
address. -/
inductive Chan where
  | proc (i : Nat)
  | addr (a : Nat)
deriving DecidableEq

/-- `struct proc`, with the parent as an index into the table, and pages, files
and inodes by number. -/
structure Proc where
  state : Procstate
  parent : Option Nat
  chan : Option Chan
  killed : Int
  xstate : Int
  pid : Int
  sz : Nat
  pagetable : Option Nat
  trapframe : Option Nat
  ofile : Nat → Option Nat
  cwd : Option Nat

namespace Proc

/-- A slot of the zero-initialized table. -/
def zero : Proc where
  state := .unused
  parent := none
  chan := none
  killed := 0
  xstate := 0
  pid := 0
  sz := 0
  pagetable := none
  trapframe := none
  ofile := fun _ => none
  cwd := none

/-- `freeproc`, apart from the pages it gives back. -/
def freeproc (x : Proc) : Proc :=
  { x with
    trapframe := none
    pagetable := none
    sz := 0
    pid := 0
    parent := none
    chan := none
    killed := 0
    xstate := 0
    state := .unused }

/-- `wakeup1` on slot `i`. -/
def wakeup1 (x : Proc) (i : Nat) : Proc :=
  if x.chan = some (.proc i) ∧ x.state = .sleeping then { x with state := .runnable } else x

/-- The body of the loop of `wakeup`. -/
def wakeup (x : Proc) (chan : Chan) : Proc :=
  if x.state = .sleeping ∧ x.chan = some chan then { x with state := .runnable } else x

/-- What `kill` does to a slot with the right pid. -/
def kill (x : Proc) : Proc :=
  { x with killed := 1, state := if x.state = .sleeping then .runnable else x.state }

/-! ## Places in system calls -/

/-- How far a process has come.  `user ret` stands for user space and all other
system calls; `ret` is the value the last of the modelled calls has returned. -/
inductive Call where
  | user (ret : Int)
  /-- `allocproc` is about to look at slot `i`. -/
  | fork (i : Nat)
  /-- `allocproc` holds the lock of slot `np` and is about to allocate a trapframe. -/
  | forkTrapframe (np : Nat)
  /-- ... to create a page table. -/
  | forkPagetable (np : Nat)
  /-- `fork` is about to copy the user memory to slot `np`. -/
  | forkCopy (np : Nat)
  /-- `kill` is about to look at slot `i`. -/
  | kill (pid : Int) (i : Nat)
  /-- `exit` is about to close descriptor `fd`. -/
  | exitFile (status : Int) (fd : Nat)
  | exitWakeInit (status : Int)
  | exitParent (status : Int)
  /-- `exit` is about to lock the parent `q` that it has read. -/
  | exitLockParent (status : Int) (q : Nat)
  | exitLockSelf (status : Int) (q : Nat)
  /-- `reparent` is about to look at slot `i`. -/
  | exitReparent (status : Int) (q i : Nat)
  | waitLock
  /-- `wait` holds the caller's lock and is about to look at slot `i`. -/
  | wait (i : Nat) (havekids : Bool)
  /-- `wait` has found the child `i` and is about to lock it. -/
  | waitChild (i : Nat)
  /-- `wait` sleeps. -/
  | waitSleep
deriving DecidableEq

/-- The table and all processes.  `lock i` is the holder of the lock of slot `i`,
`freelist` the free physical pages, and `handed` counts the calls of `allocpid`. -/
structure Table where
  proc : Nat → Proc
  lock : Nat → Option Nat
  nextpid : Int
  initproc : Nat
  freelist : List Nat
  call : Nat → Call
  handed : Nat

/-- The critical sections of the processes.  Outcomes that depend on the rest of
the kernel are part of the action: the page table that `proc_pagetable` returns,
whether `uvmcopy` and `copyout` succeed, and the free pages they leave. -/
inductive Act where
  | run (p : Nat)
  | yield (p : Nat)
  | sleep (p : Nat) (chan : Chan)
  | wakeup (i : Nat) (chan : Chan)
  | fault (p : Nat)
  /-- Any other change of the free pages. -/
  | kmem (pages : List Nat)
  /-- Any other system call, which changes only what is private to the process. -/
  | own (p : Nat) (sz pagetable : Nat) (ofile : Nat → Option Nat) (cwd : Nat)
  | fork (p : Nat)
  | allocproc (p : Nat)
  | trapframe (p : Nat)
  | pagetable (p : Nat) (result : Option Nat) (pages : List Nat)
  | copy (p : Nat) (ok : Bool) (pages : List Nat)
  | kill (p : Nat) (pid : Int)
  | killScan (p : Nat)
  | exit (p : Nat) (status : Int)
  | exitStep (p : Nat)
  | wait (p : Nat)
  | waitStep (p : Nat) (ok : Bool) (pages : List Nat)

/-! ## Steps -/

/-- The place is inside a critical section, where there is no interrupt. -/
def Call.locked : Call → Bool
  | .forkTrapframe _ | .forkPagetable _ | .forkCopy _ | .exitLockSelf _ _ | .exitReparent _ _ _
  | .wait _ _ | .waitChild _ => true
  | _ => false

/-- The process may sleep at this place. -/
def Call.maySleep : Call → Bool
  | .user _ | .exitFile _ _ => true
  | _ => false

namespace Table

/-- Change a slot. -/
@[simps -fullyApplied]
def setProc (t : Table) (i : Nat) (x : Proc) : Table :=
  { t with proc := update t.proc i x }

/-- Go to another place. -/
@[simps -fullyApplied]
def setCall (t : Table) (p : Nat) (c : Call) : Table :=
  { t with call := update t.call p c }

/-- `acquire(&proc[i].lock)`; there is no step while the lock is held. -/
def acquire (t : Table) (p i : Nat) : Option Table :=
  if t.lock i = none then some { t with lock := update t.lock i (some p) } else none

/-- `release(&proc[i].lock)`, which panics unless `p` holds the lock. -/
def release (t : Table) (p i : Nat) : Option Table :=
  if t.lock i = some p then some { t with lock := update t.lock i none } else none

/-- A critical section of `proc[i].lock` that changes slot `i` by `f`. -/
def atomically (t : Table) (i : Nat) (f : Proc → Proc) : Option Table :=
  if t.lock i = none then some (t.setProc i (f (t.proc i))) else none

end Table

open Table

/-- The scheduler switches to `p`, which returns from `sched` to where it left.
A process that comes back from `sleep` clears its channel; for any other the
channel is clear already. -/
def runProc (t : Table) (p : Nat) : Option Table :=
  let x := t.proc p
  if t.lock p = none ∧ x.state = .runnable then
    let t := t.setProc p { x with state := .running, chan := none }
    if t.call p = .waitSleep then (t.acquire p p).map fun t => t.setCall p (.wait 0 false)
    else some t
  else none

/-- The loop of `allocproc`, up to the call of `allocpid`. -/
def allocprocScan (t : Table) (p i : Nat) : Option Table :=
  if i < nproc then
    if t.lock i = none then
      if (t.proc i).state = .unused then
        some { t with
          proc := update t.proc i { t.proc i with pid := t.nextpid }
          nextpid := int (t.nextpid + 1)
          lock := update t.lock i (some p)
          call := update t.call p (.forkTrapframe i)
          handed := t.handed + 1 }
      else some (t.setCall p (.fork (i + 1)))
    else none
  else some (t.setCall p (.user (-1)))

/-- `allocproc`: allocate a trapframe page.  If there is none, the slot is left as
it is. -/
def allocTrapframe (t : Table) (p np : Nat) : Option Table :=
  match t.freelist with
  | [] => (t.release p np).map fun t => t.setCall p (.user (-1))
  | pa :: rest => some { t with
      proc := update t.proc np { t.proc np with trapframe := some pa }
      freelist := rest
      call := update t.call p (.forkPagetable np) }

/-- The error exits of `allocproc` and `fork` that free the slot. -/
def forkFail (t : Table) (p np : Nat) : Option Table :=
  ((t.setProc np (t.proc np).freeproc).release p np).map fun t => t.setCall p (.user (-1))

/-- `allocproc`: create a page table. -/
def allocPagetable (t : Table) (p np : Nat) (result : Option Nat) : Option Table :=
  match result with
  | none => forkFail t p np
  | some pt => some ((t.setProc np { t.proc np with pagetable := some pt }).setCall p
      (.forkCopy np))

/-- The child that `fork` makes of slot `np`. -/
def child (x np : Proc) (p : Nat) : Proc :=
  { np with
    sz := x.sz
    parent := some p
    ofile := fun fd => if fd < nofile ∧ x.ofile fd ≠ none then x.ofile fd else np.ofile fd
    cwd := x.cwd
    state := .runnable }

/-- `fork` after `allocproc`. -/
def forkCopy (t : Table) (p np : Nat) (ok : Bool) : Option Table :=
  if ok then
    let t := t.setProc np (child (t.proc p) (t.proc np) p)
    (t.release p np).map fun t => (t.setCall np (.user 0)).setCall p (.user (t.proc np).pid)
  else forkFail t p np

/-- The loop of `kill`. -/
def killScan (t : Table) (p : Nat) (pid : Int) (i : Nat) : Option Table :=
  if i < nproc then
    if t.lock i = none then
      if (t.proc i).pid = pid then
        some ((t.setProc i (t.proc i).kill).setCall p (.user 0))
      else some (t.setCall p (.kill pid (i + 1)))
    else none
  else some (t.setCall p (.user (-1)))

/-- The end of `exit`: wake the parent `q` and become a zombie.  The scheduler
releases the lock of `p`. -/
def exitFinish (t : Table) (p : Nat) (status : Int) (q : Nat) : Option Table := do
  let t := t.setProc q ((t.proc q).wakeup1 q)
  let t := t.setProc p { t.proc p with xstate := status, state := .zombie }
  let t ← t.release p q
  let t ← t.release p p
  return t.setCall p (.user status)

/-- `exit`. -/
def exitStep (t : Table) (p : Nat) : Option Table :=
  match t.call p with
  | .exitFile status fd =>
    if fd < nofile then
      let x := t.proc p
      some ((t.setProc p { x with ofile := update x.ofile fd none }).setCall p
        (.exitFile status (fd + 1)))
    else some ((t.setProc p { t.proc p with cwd := none }).setCall p (.exitWakeInit status))
  | .exitWakeInit status =>
    (t.atomically t.initproc fun x => x.wakeup1 t.initproc).map fun t =>
      t.setCall p (.exitParent status)
  | .exitParent status =>
    if t.lock p = none then
      (t.proc p).parent.map fun q => t.setCall p (.exitLockParent status q)
    else none
  | .exitLockParent status q => (t.acquire p q).map fun t => t.setCall p (.exitLockSelf status q)
  | .exitLockSelf status q => (t.acquire p p).map fun t => t.setCall p (.exitReparent status q 0)
  | .exitReparent status q i =>
    if i < nproc then
      if (t.proc i).parent = some p then
        (t.atomically i fun x => { x with parent := some t.initproc }).map fun t =>
          t.setCall p (.exitReparent status q (i + 1))
      else some (t.setCall p (.exitReparent status q (i + 1)))
    else exitFinish t p status q
  | _ => none

/-- `wait`; `ok` tells whether the copy of the exit status to the caller succeeds. -/
def waitStep (t : Table) (p : Nat) (ok : Bool) : Option Table :=
  match t.call p with
  | .waitLock => (t.acquire p p).map fun t => t.setCall p (.wait 0 false)
  | .wait i havekids =>
    if i < nproc then
      if (t.proc i).parent = some p then some (t.setCall p (.waitChild i))
      else some (t.setCall p (.wait (i + 1) havekids))
    else if havekids = false ∨ (t.proc p).killed ≠ 0 then
      (t.release p p).map fun t => t.setCall p (.user (-1))
    else
      let t := t.setProc p { t.proc p with chan := some (.proc p), state := .sleeping }
      (t.release p p).map fun t => t.setCall p .waitSleep
  | .waitChild i =>
    if t.lock i = none then
      if (t.proc i).state = .zombie then
        if ok then
          let pid := (t.proc i).pid
          ((t.setProc i (t.proc i).freeproc).release p p).map fun t => t.setCall p (.user pid)
        else (t.release p p).map fun t => t.setCall p (.user (-1))
      else some (t.setCall p (.wait (i + 1) true))
    else none
  | _ => none

/-- Enter a system call. -/
def startCall (t : Table) (p : Nat) (c : Call) : Option Table :=
  match t.call p with
  | .user _ => if (t.proc p).state = .running then some (t.setCall p c) else none
  | _ => none

/-- Go on with a system call. -/
def resume (t : Table) (p : Nat) (f : Call → Option Table) : Option Table :=
  if (t.proc p).state = .running then f (t.call p) else none

/-- One critical section.  There is no step where the code panics, where the
process is not at this place, or where it has to wait. -/
def step (t : Table) : Act → Option Table
  | .run p => runProc t p
  | .yield p =>
    if (t.proc p).state = .running ∧ (t.call p).locked = false then
      t.atomically p fun x => { x with state := .runnable }
    else none
  | .sleep p chan =>
    if (t.proc p).state = .running ∧ (t.call p).maySleep then
      t.atomically p fun x => { x with chan := some chan, state := .sleeping }
    else none
  | .wakeup i chan => t.atomically i fun x => x.wakeup chan
  | .fault p =>
    match t.call p with
    | .user _ =>
      if (t.proc p).state = .running then some (t.setProc p { t.proc p with killed := 1 }) else none
    | _ => none
  | .kmem pages => some { t with freelist := pages }
  | .own p sz pagetable ofile cwd =>
    match t.call p with
    | .user _ =>
      if (t.proc p).state = .running then
        some (t.setProc p { t.proc p with
          sz := sz, pagetable := some pagetable, ofile := ofile, cwd := some cwd })
      else none
    | _ => none
  | .fork p => startCall t p (.fork 0)
  | .allocproc p => resume t p fun c => match c with
    | .fork i => allocprocScan t p i
    | _ => none
  | .trapframe p => resume t p fun c => match c with
    | .forkTrapframe np => allocTrapframe t p np
    | _ => none
  | .pagetable p result pages => resume t p fun c => match c with
    | .forkPagetable np => (allocPagetable t p np result).map fun t => { t with freelist := pages }
    | _ => none
  | .copy p ok pages => resume t p fun c => match c with
    | .forkCopy np => (forkCopy t p np ok).map fun t => { t with freelist := pages }
    | _ => none
  | .kill p pid => startCall t p (.kill pid 0)
  | .killScan p => resume t p fun c => match c with
    | .kill pid i => killScan t p pid i
    | _ => none
  | .exit p status => if p = t.initproc then none else startCall t p (.exitFile status 0)
  | .exitStep p => resume t p fun _ => exitStep t p
  | .wait p => startCall t p .waitLock
  | .waitStep p ok pages => resume t p fun _ =>
    (waitStep t p ok).map fun t => { t with freelist := pages }

/-- The table after `userinit`: the first process is runnable in the root
directory, with its user page, and all other slots are as they were at boot. -/
def userinit (trapframe pagetable root : Nat) (pages : List Nat) : Table where
  proc := update (fun _ => zero) 0 { zero with
    state := .runnable
    pid := 1
    sz := 4096
    pagetable := some pagetable
    trapframe := some trapframe
    cwd := some root }
  lock := fun _ => none
  nextpid := 2
  initproc := 0
  freelist := pages
  call := fun _ => .user 0
  handed := 1

end Proc
end Xv6
