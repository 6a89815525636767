import Mathlib.Logic.Function.Basic
import Xv6.Lib.Run
import Xv6.Lib.Wrapping

/-!
# The virtio disk driver and its device

`virtio_disk_rw` and `virtio_disk_intr`, with a device that works on the descriptors.
A critical section under `vdisk_lock` is one step.  The callers hold the sleep lock of
the buffer, as `bread` and `bwrite` do.

Main definitions:

- {lit}`alloc3Desc`, {lit}`freeChain`: the descriptor pool.
- {lit}`post`: a request in the available ring.
- {lit}`intrLoop`: the interrupt handler.
- {lit}`step`: one critical section, one move of the device, or one of the callers.
-/

namespace Xv6

open Function

/-- Number of descriptors, `NUM`. -/
def num : Nat := 8

namespace Virtio

/-! ## States -/

/-- What a descriptor can point to: the header on the kernel stack of a process, the data
of a buffer, and the status byte of a chain. -/
inductive Addr where
  | header (p : Nat)
  | data (b : Nat)
  | status (i : Nat)
deriving DecidableEq

/-- `struct VRingDesc`, without the lengths. -/
structure Desc where
  addr : Option Addr
  flags : Nat
  next : Nat

/-- `VRING_DESC_F_NEXT`. -/
def descNext : Nat := 1

/-- `VRING_DESC_F_WRITE`. -/
def descWrite : Nat := 2

/-- The local variables of a `virtio_disk_rw` that waits for its request, with the
number of the request. -/
structure Wait where
  b : Nat
  i0 : Nat
  i1 : Nat
  i2 : Nat
  seq : Nat
deriving DecidableEq

/-- `idx` of `virtio_disk_rw`. -/
def Wait.idx (w : Wait) : List Nat := [w.i0, w.i1, w.i2]

/-- How far a process has come in `virtio_disk_rw`. -/
inductive Call where
  | idle
  /-- At the head of the allocation loop, without the lock. -/
  | alloc (b : Nat) (write : Bool)
  /-- In `sleep(&disk.free[0], &disk.vdisk_lock)`. -/
  | allocSleep (b : Nat) (write : Bool)
  /-- In the second loop, woken up and without the lock. -/
  | wait (w : Wait)
  /-- In `sleep(b, &disk.vdisk_lock)`. -/
  | waitSleep (w : Wait)
deriving DecidableEq

/-- The local variables of a call that has made a request. -/
def Call.waiting : Call → Option Wait
  | .wait w | .waitSleep w => some w
  | _ => none

/-- A request: the head of its chain, the process and the buffer, and its number. -/
structure Request where
  head : Nat
  p : Nat
  b : Nat
  seq : Nat
deriving DecidableEq

/-- A request that the device works on, with the address of the data that it has found. -/
structure Job where
  req : Request
  data : Option Addr

/-- The driver's and the device's state.  The last six fields but one are histories: the number
of requests made, the requests in the available ring, those with an unread entry in the
used ring, all that the device has completed, and the buffers that the interrupt handler
has marked as done. -/
structure State where
  desc : Nat → Desc
  free : Nat → Bool
  info : Nat → Option Nat
  status : Nat → Nat
  avail : Nat → Nat
  availIdx : Nat
  used : Nat → Nat
  usedId : Nat
  usedIdx : Nat
  disk : Nat → Bool
  holder : Nat → Option Nat
  call : Nat → Call
  /-- The device's own counter of the available ring. -/
  seen : Nat
  jobs : List Job
  seq : Nat
  queued : List Request
  done : List Request
  completed : List Request
  processed : List Nat
  panic : Option String

/-- After `virtio_disk_init`. -/
def boot : State where
  desc := fun _ => ⟨none, 0, 0⟩
  free := fun _ => true
  info := fun _ => none
  status := fun _ => 0
  avail := fun _ => 0
  availIdx := 0
  used := fun _ => 0
  usedId := 0
  usedIdx := 0
  disk := fun _ => false
  holder := fun _ => none
  call := fun _ => .idle
  seen := 0
  jobs := []
  seq := 0
  queued := []
  done := []
  completed := []
  processed := []
  panic := none

namespace State

def setCall (s : State) (p : Nat) (c : Call) : State :=
  { s with call := update s.call p c }

/-- `wakeup(&disk.free[0])`. -/
def wakeupFree (s : State) : State :=
  { s with call := fun p =>
      match s.call p with
      | .allocSleep b write => .alloc b write
      | other => other }

/-- `wakeup(b)`. -/
def wakeupBuf (s : State) (b : Nat) : State :=
  { s with call := fun p =>
      match s.call p with
      | .waitSleep w => if w.b = b then .wait w else .waitSleep w
      | other => other }

/-- The local variables of a process that has made a request. -/
def waiting (s : State) (p : Nat) : Option Wait := (s.call p).waiting

end State

/-! ## Descriptors -/

/-- `alloc_desc`. -/
def allocDesc (s : State) : Option (Nat × State) :=
  ((List.range num).find? s.free).map fun i =>
    (i, { s with free := update s.free i false })

/-- `free_desc`. -/
def freeDesc (s : State) (i : Nat) : Except String State :=
  if num ≤ i then .error "virtio_disk_intr 1"
  else if s.free i = true then .error "virtio_disk_intr 2"
  else .ok { s with
    desc := update s.desc i { s.desc i with addr := none }
    free := update s.free i true }.wakeupFree

/-- `free_chain`, with a bound on the turns of its loop. -/
def freeChain : Nat → State → Nat → Except String State
  | 0, _, _ => .error "free_chain"
  | k + 1, s, i => do
    let s ← freeDesc s i
    if (s.desc i).flags &&& descNext ≠ 0 then freeChain k s (s.desc i).next else .ok s

/-- The loop of `alloc3_desc` that gives back what was allocated. -/
def freeAll : List Nat → State → Except String State
  | [], s => .ok s
  | i :: is, s => do
    let s ← freeDesc s i
    freeAll is s

/-- The loop of `alloc3_desc`, with `k` descriptors still to find. -/
def allocLoop : Nat → List Nat → State → Except String (Option (List Nat) × State)
  | 0, idx, s => .ok (some idx, s)
  | k + 1, idx, s =>
    match allocDesc s with
    | some (i, s') => allocLoop k (idx ++ [i]) s'
    | none => do
      let s ← freeAll idx s
      .ok (none, s)

/-- `alloc3_desc`. -/
def alloc3Desc (s : State) : Except String (Option (List Nat) × State) := allocLoop 3 [] s

/-! ## The driver -/

/-- `virtio_disk_rw` from the format of the descriptors to its first `sleep(b)`. -/
def post (s : State) (p b : Nat) (write : Bool) (i0 i1 i2 : Nat) : State :=
  let desc := update s.desc i0 ⟨some (.header p), descNext, i1⟩
  let desc := update desc i1
    ⟨some (.data b), (if write then 0 else descWrite) ||| descNext, i2⟩
  let desc := update desc i2 ⟨some (.status i0), descWrite, 0⟩
  { s with
    desc := desc
    status := update s.status i0 0
    disk := update s.disk b true
    info := update s.info i0 (some b)
    avail := update s.avail (s.availIdx % num) i0
    availIdx := (s.availIdx + 1) % 2 ^ 16
    call := update s.call p (.waitSleep ⟨b, i0, i1, i2, s.seq⟩)
    queued := s.queued ++ [⟨i0, p, b, s.seq⟩]
    seq := s.seq + 1 }

/-- The first loop of `virtio_disk_rw`. -/
def allocStep (s : State) (p b : Nat) (write : Bool) : Except String State := do
  let (idx, s) ← alloc3Desc s
  match idx with
  | some [i0, i1, i2] => .ok (post s p b write i0 i1 i2)
  | _ => .ok (s.setCall p (.allocSleep b write))

/-- The second loop of `virtio_disk_rw` and what follows it. -/
def waitStep (s : State) (p : Nat) (w : Wait) : Except String State :=
  if s.disk w.b = true then .ok (s.setCall p (.waitSleep w))
  else freeChain (num + 1)
    { s with info := update s.info w.i0 none, call := update s.call p .idle } w.i0

/-- The end of one turn of the loop of `virtio_disk_intr`, which has found the buffer `b`. -/
def State.finish (s : State) (b : Nat) : State :=
  { s.wakeupBuf b with
    disk := update s.disk b false
    usedIdx := (s.usedIdx + 1) % num
    done := s.done.tail
    processed := s.processed ++ [b] }

/-- One turn of the loop of `virtio_disk_intr`. -/
def intrStep (s : State) : Except String State :=
  let id := s.used s.usedIdx
  if s.status id ≠ 0 then .error "virtio_disk_intr status"
  else
    match s.info id with
    | none => .error "kerneltrap"
    | some b => .ok (s.finish b)

/-- The loop of `virtio_disk_intr`, with a bound on its turns. -/
def intrLoop : Nat → State → Except String State
  | 0, s => .ok s
  | k + 1, s =>
    if s.usedIdx % num ≠ s.usedId % num then do
      let s ← intrStep s
      intrLoop k s
    else .ok s

/-- `virtio_disk_intr`.  Its loop makes at most seven turns. -/
def intr (s : State) : Except String State := intrLoop num s

/-! ## The device -/

/-- What the device finds in the next entry of the available ring and in its chain. -/
def State.nextJob (s : State) : Job :=
  let head := s.avail (s.seen % num)
  let posted := s.queued.headD ⟨0, 0, 0, 0⟩
  ⟨⟨head, posted.p, posted.b, posted.seq⟩, (s.desc (s.desc head).next).addr⟩

/-- The device takes the next entry of the available ring. -/
def consume (s : State) : Option State :=
  if s.seen = s.availIdx then none
  else
    some { s with
      seen := (s.seen + 1) % 2 ^ 16
      jobs := s.jobs ++ [s.nextJob]
      queued := s.queued.tail }

/-- The device completes one of the requests that it works on. -/
def complete (s : State) (k : Nat) : Option State :=
  (s.jobs[k]?).map fun job =>
    { s with
      status := update s.status job.req.head 0
      used := update s.used (s.usedId % num) job.req.head
      usedId := (s.usedId + 1) % 2 ^ 16
      jobs := s.jobs.eraseIdx k
      done := s.done ++ [job.req]
      completed := s.completed ++ [job.req] }

/-! ## Steps -/

inductive Act where
  /-- `acquiresleep(&b->lock)` and `releasesleep(&b->lock)` of a caller. -/
  | lock (p b : Nat)
  | unlock (p b : Nat)
  /-- A call of `virtio_disk_rw`. -/
  | rw (p b : Nat) (write : Bool)
  /-- The next critical section of a call. -/
  | run (p : Nat)
  /-- `kill` ends a sleep. -/
  | kill (p : Nat)
  | intr
  | consume
  | complete (k : Nat)
deriving DecidableEq

/-- A panic stops the machine. -/
def settle (s : State) : Except String State → State
  | .ok s' => s'
  | .error msg => { s with panic := some msg }

/-- Go on with a call.  A process that sleeps has no step. -/
def runStep (s : State) (p : Nat) : Option (Except String State) :=
  match s.call p with
  | .idle | .allocSleep _ _ | .waitSleep _ => none
  | .alloc b write => some (allocStep s p b write)
  | .wait w => some (waitStep s p w)

/-- A call after `kill`. -/
def killed : Call → Call
  | .allocSleep b write => .alloc b write
  | .waitSleep w => .wait w
  | other => other

def step (s : State) (a : Act) : Option State :=
  if s.panic = none then
    match a with
    | .lock p b =>
      if s.holder b = none then some { s with holder := update s.holder b (some p) }
      else none
    | .unlock p b =>
      if s.holder b = some p ∧ s.call p = .idle then
        some { s with holder := update s.holder b none }
      else none
    | .rw p b write =>
      if s.holder b = some p ∧ s.call p = .idle then some (s.setCall p (.alloc b write)) else none
    | .run p => (runStep s p).map (settle s)
    | .kill p => some (s.setCall p (killed (s.call p)))
    | .intr => some (settle s (intr s))
    | .consume => consume s
    | .complete k => complete s k
  else none

end Virtio
end Xv6
