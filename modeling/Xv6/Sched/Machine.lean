import Mathlib.Logic.Function.Basic
import Mathlib.Tactic.Simps.Basic
import Xv6.Lib.Run
import Xv6.Proc.Table

/-!
# CPUs, kernel threads and spin locks

The code of `proc.c` that several CPUs execute at once: the scheduler loops, `sched`,
`yield`, `sleep`, `wakeup`, `kill`, `fork`, `exit` and `wait`.  A CPU executes one
program counter at a time; a step is one `acquire` or one `release`, or the code between
two of them.  `swtch` takes two steps, one that saves the registers of the old thread and
one that loads those of the new one.

Main definitions:

- {lit}`Pc`: the places in the code, the scheduler's included.
- {lit}`Machine`: the process table, the locks and the CPUs.
- {lit}`run`: the step of the code at the program counter of one CPU.
- {lit}`step`: these, and the calls and interrupts with which other code begins.
-/

namespace Xv6
namespace Sched

open Function

/-! ## States -/

/-- A spin lock: `proc[i].lock`, or any other. -/
inductive Lock where
  | proc (i : Nat)
  | other (k : Nat)
deriving DecidableEq

/-- Where a CPU is.  Local variables that are read later are part of the place: `p` is
the result of `myproc()`, `back` the place to which a function or an interrupt returns. -/
inductive Pc where
  /-- `scheduler` is about to lock slot `i`. -/
  | scan (i : Nat)
  | test (i : Nat)
  /-- In `swtch(&c->context, &p->context)`, nothing saved yet. -/
  | dispatch (i : Nat)
  /-- ... with the scheduler's context saved. -/
  | load (i : Nat)
  /-- `swtch` has returned to `scheduler`. -/
  | back (i : Nat)
  | drop (i : Nat)
  /-- User space, and all kernel code that is not modelled. -/
  | user
  /-- A device interrupt. -/
  | intr (back : Pc)
  /-- `wakeup` is about to lock slot `i`. -/
  | wakeup (ch : Chan) (i : Nat) (back : Pc)
  | wakeupSet (ch : Chan) (i : Nat) (back : Pc)
  | yield (back : Pc)
  | yieldSet (p : Nat) (back : Pc)
  | yieldBack (p : Nat) (back : Pc)
  /-- `sleep` with a lock that is not the caller's. -/
  | sleep (ch : Chan) (k : Nat)
  | sleepRelease (p : Nat) (ch : Chan) (k : Nat)
  | sleepSet (p : Nat) (ch : Chan) (k : Nat)
  | sleepBack (p : Nat) (ch : Chan) (k : Nat)
  | sleepAcquire (ch : Chan) (k : Nat)
  /-- `sched`, which returns to `back`. -/
  | sched (back : Pc)
  /-- In `swtch(&p->context, &mycpu()->context)`, with the context of `p` saved. -/
  | swtch
  /-- `kill` is about to lock slot `i`. -/
  | kill (pid : Int) (i : Nat)
  | killSet (pid : Int) (i : Nat)
  /-- `allocproc` is about to lock slot `i`. -/
  | fork (p i : Nat)
  | forkTest (p i : Nat)
  /-- `allocproc` has found slot `np` and allocates its pages. -/
  | forkAlloc (p np : Nat)
  /-- `fork` after `allocproc`. -/
  | forkCopy (p np : Nat)
  | forkret
  /-- `exit` is about to lock `initproc`. -/
  | exitInit (p : Nat) (status : Int)
  | exitWake (p : Nat) (status : Int)
  | exitSelf (p : Nat) (status : Int)
  | exitParent (p : Nat) (status : Int)
  | exitLockParent (p : Nat) (status : Int) (q : Nat)
  | exitLockSelf (p : Nat) (status : Int) (q : Nat)
  /-- `reparent` is about to look at slot `i`. -/
  | reparent (p : Nat) (status : Int) (q i : Nat)
  | reparentLock (p : Nat) (status : Int) (q i : Nat)
  | reparentSet (p : Nat) (status : Int) (q i : Nat)
  | exitZombie (p : Nat) (status : Int) (q : Nat)
  | exitRelease (p q : Nat)
  /-- Behind the `sched()` of `exit`. -/
  | zombie
  | waitLock (p addr : Nat)
  /-- `wait` is about to look at slot `i`. -/
  | waitScan (p addr i : Nat) (havekids : Bool)
  | waitChild (p addr i : Nat)
  | waitTest (p addr i : Nat)
  | waitRelease (p : Nat)
  /-- `wait` in `sleep(p, &p->lock)`. -/
  | waitSleep (p addr : Nat)
  | waitBack (p addr : Nat)
deriving DecidableEq

/-- `struct proc`, the fields that this code uses.  A context is `none` after its
registers have been loaded, until they are saved again.  `uid` numbers the processes in
the order of their births; it is not part of the source. -/
structure Slot where
  state : Procstate
  parent : Option Nat
  chan : Option Chan
  killed : Bool
  xstate : Int
  pid : Int
  context : Option Pc
  uid : Nat

/-- `struct cpu`, with what the CPU executes and the locks it holds; `noff` is the number
of these locks. -/
structure Cpu where
  proc : Option Nat
  context : Option Pc
  pc : Pc
  locks : List Lock

def Cpu.noff (x : Cpu) : Nat := x.locks.length

/-- What `wait` has done to a child: who has called it, the parent of the child at that
time, which process the child was, and what has been copied to the caller. -/
structure Reap where
  caller : Nat
  parent : Option Nat
  uid : Nat
  addr : Nat
  stored : Option Int

/-- The machine.  `exits` and `reaps` are histories, which no step reads: the calls of
`exit`, each with the process and its status, and the children that `wait` has freed. -/
structure Machine where
  slot : Nat → Slot
  lock : Lock → Option Nat
  cpu : Nat → Cpu
  nextpid : Int
  initproc : Nat
  panicked : Option String
  born : Nat
  exits : List (Nat × Int)
  reaps : List Reap

namespace Slot

/-- A slot of the zero-initialized table. -/
def zero : Slot where
  state := .unused
  parent := none
  chan := none
  killed := false
  xstate := 0
  pid := 0
  context := none
  uid := 0

/-- `freeproc`, apart from the pages it gives back. -/
def freeproc (x : Slot) : Slot :=
  { x with
    pid := 0
    parent := none
    chan := none
    killed := false
    xstate := 0
    state := .unused }

/-- The body of the loop of `wakeup`. -/
def wakeup (x : Slot) (ch : Chan) : Slot :=
  if x.state = .sleeping ∧ x.chan = some ch then { x with state := .runnable } else x

/-- `wakeup1` on slot `i`. -/
def wakeup1 (x : Slot) (i : Nat) : Slot :=
  if x.chan = some (.proc i) ∧ x.state = .sleeping then { x with state := .runnable } else x

/-- What `kill` does to a slot with the right pid. -/
def kill (x : Slot) : Slot :=
  { x with killed := true, state := if x.state = .sleeping then .runnable else x.state }

/-- The assignments of `sleep` before `sched()`. -/
def sleep (x : Slot) (ch : Chan) : Slot :=
  { x with chan := some ch, state := .sleeping }

end Slot

/-! ## Elementary steps -/

namespace Machine

@[simps -fullyApplied]
def setSlot (m : Machine) (i : Nat) (x : Slot) : Machine :=
  { m with slot := update m.slot i x }

@[simps -fullyApplied]
def setCpu (m : Machine) (c : Nat) (x : Cpu) : Machine :=
  { m with cpu := update m.cpu c x }

@[simps! -fullyApplied]
def goto (m : Machine) (c : Nat) (pc : Pc) : Machine :=
  m.setCpu c { m.cpu c with pc := pc }

def panic (m : Machine) (msg : String) : Machine :=
  { m with panicked := some msg }

/-- CPU `c` has taken the lock. -/
@[simps! -fullyApplied]
def took (m : Machine) (c : Nat) (l : Lock) (pc : Pc) : Machine :=
  { m with lock := update m.lock l (some c) }.setCpu c
    { m.cpu c with locks := l :: (m.cpu c).locks, pc := pc }

/-- CPU `c` has given the lock back. -/
@[simps! -fullyApplied]
def gave (m : Machine) (c : Nat) (l : Lock) (pc : Pc) : Machine :=
  { m with lock := update m.lock l none }.setCpu c
    { m.cpu c with locks := (m.cpu c).locks.erase l, pc := pc }

/-- `acquire`; there is no step while another CPU holds the lock. -/
def acquire (m : Machine) (c : Nat) (l : Lock) (pc : Pc) : Option Machine :=
  match m.lock l with
  | none => some (m.took c l pc)
  | some d => if d = c then some (m.panic "acquire") else none

/-- `release`. -/
def release (m : Machine) (c : Nat) (l : Lock) (pc : Pc) : Option Machine :=
  if m.lock l = some c then some (m.gave c l pc) else some (m.panic "release")

/-- Change slot `i`, then release its lock. -/
def setRelease (m : Machine) (c i : Nat) (x : Slot) (pc : Pc) : Option Machine :=
  (m.setSlot i x).release c (.proc i) pc

/-- `acquire(&myproc()->lock)`. -/
def acquireSelf (m : Machine) (c : Nat) (pc : Nat → Pc) : Option Machine :=
  match (m.cpu c).proc with
  | none => none
  | some p => m.acquire c (.proc p) (pc p)

end Machine

open Machine

/-! ## The functions -/

/-- `sched`, up to the save of the context in `swtch`. -/
def sched (m : Machine) (c : Nat) (back : Pc) : Option Machine :=
  match (m.cpu c).proc with
  | none => none
  | some p =>
    if m.lock (.proc p) ≠ some c then some (m.panic "sched p->lock")
    else if (m.cpu c).noff ≠ 1 then some (m.panic "sched locks")
    else if (m.slot p).state = .running then some (m.panic "sched running")
    else some ((m.setSlot p { m.slot p with context := some back }).goto c .swtch)

/-- `allocproc` in slot `np`, after the pid: the kernel is out of pages at the trapframe
or at the page table, or the new context is set up. -/
inductive Alloc where
  | noTrapframe
  | noPagetable
  | done
deriving DecidableEq

def forkAlloc (m : Machine) (c p np : Nat) : Alloc → Option Machine
  | .noTrapframe => m.release c (.proc np) .user
  | .noPagetable => m.setRelease c np (m.slot np).freeproc .user
  | .done =>
    some ((m.setSlot np { m.slot np with context := some .forkret }).goto c (.forkCopy p np))

/-- `fork` after `allocproc`; `ok` tells whether `uvmcopy` succeeds. -/
def forkCopy (m : Machine) (c p np : Nat) (ok : Bool) : Option Machine :=
  if ok then
    { m with born := m.born + 1 }.setRelease c np
      { m.slot np with parent := some p, state := .runnable, uid := m.born } .user
  else m.setRelease c np (m.slot np).freeproc .user

/-- `exit` under the locks of the parent `q` and of the caller. -/
def exitZombie (m : Machine) (c p : Nat) (status : Int) (q : Nat) : Option Machine :=
  if m.lock (.proc q) ≠ some c then some (m.panic "wakeup1")
  else
    let m := m.setSlot q ((m.slot q).wakeup1 q)
    some ((m.setSlot p { m.slot p with xstate := status, state := .zombie }).goto c
      (.exitRelease p q))

/-- `wait` with the lock of its child `i`; `ok` tells whether `copyout` succeeds. -/
def waitTest (m : Machine) (c p addr i : Nat) (ok : Bool) : Option Machine :=
  let x := m.slot i
  if x.state = .zombie then
    if addr ≠ 0 ∧ ok = false then m.release c (.proc i) (.waitRelease p)
    else
      let reap : Reap := ⟨p, x.parent, x.uid, addr, if addr ≠ 0 then some x.xstate else none⟩
      { m with reaps := m.reaps ++ [reap] }.setRelease c i x.freeproc (.waitRelease p)
  else m.release c (.proc i) (.waitScan p addr (i + 1) true)

/-- The step of the code at the program counter of CPU `c`. -/
def run (m : Machine) (c : Nat) : Option Machine :=
  match (m.cpu c).pc with
  -- `scheduler`
  | .scan i =>
    if i < nproc then m.acquire c (.proc i) (.test i) else some (m.goto c (.scan 0))
  | .test i =>
    if (m.slot i).state = .runnable then
      some ((m.setSlot i { m.slot i with state := .running }).setCpu c
        { m.cpu c with proc := some i, pc := .dispatch i })
    else some (m.goto c (.drop i))
  | .dispatch i => some (m.setCpu c { m.cpu c with context := some (.back i), pc := .load i })
  | .load i =>
    (m.slot i).context.map fun pc => (m.setSlot i { m.slot i with context := none }).goto c pc
  | .back i => some (m.setCpu c { m.cpu c with proc := none, pc := .drop i })
  | .drop i => m.release c (.proc i) (.scan (i + 1))
  | .user | .intr _ => none
  -- `wakeup`
  | .wakeup ch i back =>
    if i < nproc then m.acquire c (.proc i) (.wakeupSet ch i back) else some (m.goto c back)
  | .wakeupSet ch i back => m.setRelease c i ((m.slot i).wakeup ch) (.wakeup ch (i + 1) back)
  -- `yield`
  | .yield back => m.acquireSelf c fun p => .yieldSet p back
  | .yieldSet p back =>
    some ((m.setSlot p { m.slot p with state := .runnable }).goto c (.sched (.yieldBack p back)))
  | .yieldBack p back => m.release c (.proc p) back
  -- `sleep`
  | .sleep ch k => m.acquireSelf c fun p => .sleepRelease p ch k
  | .sleepRelease p ch k => m.release c (.other k) (.sleepSet p ch k)
  | .sleepSet p ch k =>
    some ((m.setSlot p ((m.slot p).sleep ch)).goto c (.sched (.sleepBack p ch k)))
  | .sleepBack p ch k => m.setRelease c p { m.slot p with chan := none } (.sleepAcquire ch k)
  | .sleepAcquire _ k => m.acquire c (.other k) .user
  -- `sched`
  | .sched back => sched m c back
  | .swtch =>
    (m.cpu c).context.map fun pc => m.setCpu c { m.cpu c with context := none, pc := pc }
  -- `kill`
  | .kill pid i =>
    if i < nproc then m.acquire c (.proc i) (.killSet pid i) else some (m.goto c .user)
  | .killSet pid i =>
    if (m.slot i).pid = pid then m.setRelease c i (m.slot i).kill .user
    else m.release c (.proc i) (.kill pid (i + 1))
  -- `fork`
  | .fork p i =>
    if i < nproc then m.acquire c (.proc i) (.forkTest p i) else some (m.goto c .user)
  | .forkTest p i =>
    if (m.slot i).state = .unused then
      some (({ m with nextpid := int (m.nextpid + 1) }.setSlot i
        { m.slot i with pid := m.nextpid }).goto c (.forkAlloc p i))
    else m.release c (.proc i) (.fork p (i + 1))
  | .forkAlloc _ _ | .forkCopy _ _ => none
  | .forkret =>
    match (m.cpu c).proc with
    | none => none
    | some p => m.release c (.proc p) .user
  -- `exit`
  | .exitInit p status => m.acquire c (.proc m.initproc) (.exitWake p status)
  | .exitWake p status =>
    m.setRelease c m.initproc ((m.slot m.initproc).wakeup1 m.initproc) (.exitSelf p status)
  | .exitSelf p status => m.acquire c (.proc p) (.exitParent p status)
  | .exitParent p status =>
    match (m.slot p).parent with
    | none => none
    | some q => m.release c (.proc p) (.exitLockParent p status q)
  | .exitLockParent p status q => m.acquire c (.proc q) (.exitLockSelf p status q)
  | .exitLockSelf p status q => m.acquire c (.proc p) (.reparent p status q 0)
  | .reparent p status q i =>
    if i < nproc then
      if (m.slot i).parent = some p then some (m.goto c (.reparentLock p status q i))
      else some (m.goto c (.reparent p status q (i + 1)))
    else some (m.goto c (.exitZombie p status q))
  | .reparentLock p status q i => m.acquire c (.proc i) (.reparentSet p status q i)
  | .reparentSet p status q i =>
    m.setRelease c i { m.slot i with parent := some m.initproc } (.reparent p status q (i + 1))
  | .exitZombie p status q => exitZombie m c p status q
  | .exitRelease _ q => m.release c (.proc q) (.sched .zombie)
  | .zombie => some (m.panic "zombie exit")
  -- `wait`
  | .waitLock p addr => m.acquire c (.proc p) (.waitScan p addr 0 false)
  | .waitScan p addr i havekids =>
    if i < nproc then
      if (m.slot i).parent = some p then some (m.goto c (.waitChild p addr i))
      else some (m.goto c (.waitScan p addr (i + 1) havekids))
    else if havekids = false ∨ (m.slot p).killed = true then m.release c (.proc p) .user
    else some (m.goto c (.waitSleep p addr))
  | .waitChild p addr i => m.acquire c (.proc i) (.waitTest p addr i)
  | .waitTest _ _ _ => none
  | .waitRelease p => m.release c (.proc p) .user
  | .waitSleep p addr =>
    some ((m.setSlot p ((m.slot p).sleep (.proc p))).goto c (.sched (.waitBack p addr)))
  | .waitBack p addr =>
    some ((m.setSlot p { m.slot p with chan := none }).goto c (.waitScan p addr 0 false))

/-! ## Other code -/

/-- What happens on a CPU. -/
inductive Move where
  /-- The code goes on. -/
  | run
  /-- ... with the outcome of an allocation or of a copy. -/
  | alloc (outcome : Alloc)
  | copy (ok : Bool)
  /-- Other kernel code takes or gives back a lock, or calls `wakeup` or `sleep`. -/
  | acquire (k : Nat)
  | release (k : Nat)
  | wakeup (ch : Chan)
  | sleep (a k : Nat)
  /-- An interrupt from a device or from the timer, and the return from it. -/
  | intr
  | timer
  | iret
  | kill (pid : Int)
  | fork
  | exit (status : Int)
  | wait (addr : Nat)

/-- An action: a CPU and what happens there. -/
structure Act where
  cpu : Nat
  move : Move

/-- A system call, which is made with no lock held and reads `myproc()` first. -/
def syscall (m : Machine) (c : Nat) (call : Nat → Option Machine) : Option Machine :=
  match (m.cpu c).pc with
  | .user => if (m.cpu c).locks = [] then (m.cpu c).proc.bind call else none
  | _ => none

/-- Code that may take locks and call `wakeup`: the kernel at large and interrupt
handlers. -/
def Pc.handler : Pc → Bool
  | .user | .intr _ => true
  | _ => false

/-- `exit`; closing the files is part of the code before it. -/
def exit (m : Machine) (c p : Nat) (status : Int) : Machine :=
  if p = m.initproc then m.panic "init exiting"
  else { m with exits := m.exits ++ [((m.slot p).uid, status)] }.goto c (.exitInit p status)

/-- A move of CPU `c`. -/
def move (m : Machine) (c : Nat) : Move → Option Machine
  | .run => run m c
  | .alloc outcome =>
    match (m.cpu c).pc with
    | .forkAlloc p np => forkAlloc m c p np outcome
    | _ => none
  | .copy ok =>
    match (m.cpu c).pc with
    | .forkCopy p np => forkCopy m c p np ok
    | .waitTest p addr i => waitTest m c p addr i ok
    | _ => none
  | .acquire k => if (m.cpu c).pc.handler then m.acquire c (.other k) (m.cpu c).pc else none
  | .release k => if (m.cpu c).pc.handler then m.release c (.other k) (m.cpu c).pc else none
  | .wakeup ch => if (m.cpu c).pc.handler then some (m.goto c (.wakeup ch 0 (m.cpu c).pc)) else none
  | .sleep a k =>
    if (m.cpu c).pc = .user ∧ m.lock (.other k) = some c then some (m.goto c (.sleep (.addr a) k))
    else none
  | .intr => if (m.cpu c).locks = [] then some (m.goto c (.intr (m.cpu c).pc)) else none
  | .timer =>
    if (m.cpu c).locks = [] ∧ (m.cpu c).proc ≠ none then some (m.goto c (.yield (m.cpu c).pc))
    else none
  | .iret =>
    match (m.cpu c).pc with
    | .intr back => if (m.cpu c).locks = [] then some (m.goto c back) else none
    | _ => none
  | .kill pid => syscall m c fun _ => some (m.goto c (.kill pid 0))
  | .fork => syscall m c fun p => some (m.goto c (.fork p 0))
  | .exit status => syscall m c fun p => some (exit m c p status)
  | .wait addr => syscall m c fun p => some (m.goto c (.waitLock p addr))

/-- One step of one CPU; there is none after a panic. -/
def step (m : Machine) (a : Act) : Option Machine :=
  if m.panicked = none then move m a.cpu a.move else none

/-- The machine when all CPUs have entered `scheduler`: `userinit` has made the first
process, and its context is set up. -/
def boot : Machine where
  slot := update (fun _ => .zero) 0
    { Slot.zero with state := .runnable, pid := 1, context := some .forkret }
  lock := fun _ => none
  cpu := fun _ => ⟨none, none, .scan 0, []⟩
  nextpid := 2
  initproc := 0
  panicked := none
  born := 1
  exits := []
  reaps := []

end Sched
end Xv6
