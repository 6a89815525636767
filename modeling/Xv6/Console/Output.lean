import Xv6.Cpu.Spinlock
import Xv6.Lib.Run
import Xv6.Lib.Wrapping

/-!
# Writing to the console

`consolewrite` passes bytes to `uartputc`, which stores them in a ring from which
`uartstart` feeds the UART.  `uart_tx_lock` is taken and given up within one step.
`consolewrite` keeps `cons.lock` from its first byte to its last, also when `uartputc`
finds the ring full and calls `sleep`.

Main results:

- Theorems {lit}`Ring.store` and {lit}`Ring.send`: the ring has the bytes that `uartputc`
  has stored and `uartstart` has not yet handed over.
- Theorem {lit}`console_panics_iff_full`: `sched` panics exactly when a `uartputc` finds the
  ring full.
-/

namespace Xv6

open Function

/-- Size of the transmit ring, `UART_TX_BUF_SIZE`. -/
def uartTxBufSize : Nat := 32

namespace Uart

/-! ## States -/

/-- How far a process has come in `consolewrite`.  The bytes are those that
`either_copyin` will find, up to the end of the buffer or to a fault. -/
inductive Call where
  | idle
  /-- Before it has `cons.lock`. -/
  | write (bytes : List UInt8)
  /-- At the head of the loop, with `cons.lock`. -/
  | loop (bytes : List UInt8)
  /-- In the call of `sleep` of `uartputc(c)`. -/
  | asleep (c : UInt8) (bytes : List UInt8)
  /-- There again after a `wakeup`. -/
  | woken (c : UInt8) (bytes : List UInt8)
deriving DecidableEq

/-- The ring, the processes, and for each process the CPU that runs it.  The last two fields
but one are histories: the bytes passed to `uartputc` and those written to `THR`. -/
structure State where
  buf : Nat → UInt8
  w : Nat
  r : Nat
  consLock : Option Nat
  call : Nat → Call
  cpu : Nat → Cpu
  passed : List UInt8
  sent : List UInt8
  panic : Option String

/-- After `consoleinit`, with any contents of the ring and any state of the CPUs. -/
def boot (buf : Nat → UInt8) (intena intr : Nat → Bool) : State where
  buf := buf
  w := 0
  r := 0
  consLock := none
  call := fun _ => .idle
  cpu := fun p => ⟨0, intena p, intr p⟩
  passed := []
  sent := []
  panic := none

namespace State

def setCall (s : State) (p : Nat) (c : Call) : State :=
  { s with call := update s.call p c }

/-- The part of `acquire` that concerns the CPU. -/
def push (s : State) (p : Nat) : State :=
  { s with cpu := update s.cpu p ((s.cpu p).pushOff (s.cpu p).intr) }

/-- The part of `release` that concerns the CPU. -/
def pop (s : State) (p : Nat) : Except String State :=
  match (s.cpu p).popOff with
  | .ok u => .ok { s with cpu := update s.cpu p u }
  | .error msg => .error msg

/-- `wakeup(&uart_tx_r)`. -/
def wakeup (s : State) : State :=
  { s with call := fun p =>
      match s.call p with
      | .asleep c bytes => .woken c bytes
      | other => other }

/-- The test of `uartputc`: the ring is full. -/
def Full (s : State) : Prop := (s.w + 1) % uartTxBufSize = s.r

/-- The test is decidable. -/
instance (s : State) : Decidable s.Full := inferInstanceAs (Decidable (_ = _))

/-- `uart_tx_buf[uart_tx_w] = c` and the increment of `uart_tx_w`. -/
def store (s : State) (c : UInt8) : State :=
  { s with
    buf := update s.buf s.w c
    w := (s.w + 1) % uartTxBufSize }

/-- One iteration of `uartstart`. -/
def send (s : State) : State :=
  { { s with r := (s.r + 1) % uartTxBufSize }.wakeup with sent := s.sent ++ [s.buf s.r] }

end State

open State

/-- `uartstart`, while `LSR_TX_IDLE` is found set `ready` times in a row. -/
def uartstart : Nat → State → State
  | 0, s => s
  | ready + 1, s => if s.w = s.r then s else uartstart ready s.send

/-- `sleep(&uart_tx_r, &uart_tx_lock)` up to the switch to the scheduler. -/
def sleep (s : State) (p : Nat) (c : UInt8) (bytes : List UInt8) : Except String State := do
  -- `p->lock` is acquired, then `uart_tx_lock` released.
  let s ← (s.push p).pop p
  match (s.cpu p).schedPanic true false with
  | some msg => .error msg
  | none => .ok (s.setCall p (.asleep c bytes))

/-- The loop of `uartputc`, with `uart_tx_lock`. -/
def putLoop (s : State) (p : Nat) (c : UInt8) (bytes : List UInt8) (ready : Nat) :
    Except String State :=
  if s.Full then sleep s p c bytes
  else (uartstart ready ((s.store c).setCall p (.loop bytes))).pop p

/-- `uartputc`. -/
def uartputc (s : State) (p : Nat) (c : UInt8) (bytes : List UInt8) (ready : Nat) :
    Except String State :=
  putLoop ({ s with passed := s.passed ++ [c] }.push p) p c bytes ready

/-- The return from `sleep`, which releases `p->lock` and acquires `uart_tx_lock`. -/
def wake (s : State) (p : Nat) (c : UInt8) (bytes : List UInt8) (ready : Nat) :
    Except String State := do
  let s ← s.pop p
  putLoop (s.push p) p c bytes ready

inductive Act where
  | write (p : Nat) (bytes : List UInt8)
  /-- The next step of the call of `p`, with the times that the UART is found ready. -/
  | run (p : Nat) (ready : Nat)
  /-- `uartintr`, after the input. -/
  | intr (ready : Nat)
deriving DecidableEq

/-- Go on with `consolewrite`.  There is no step while another process has `cons.lock`. -/
def runStep (s : State) (p : Nat) (ready : Nat) : Option (Except String State) :=
  match s.call p with
  | .idle => none
  | .write bytes =>
    if s.consLock = none then
      some (.ok ({ s with consLock := some p }.push p |>.setCall p (.loop bytes)))
    else none
  | .loop [] => some ({ s with consLock := none }.setCall p .idle |>.pop p)
  | .loop (c :: bytes) => some (uartputc s p c bytes ready)
  | .asleep _ _ => none
  | .woken c bytes => some (wake s p c bytes ready)

/-- A panic stops the machine. -/
def settle (s : State) : Except String State → State
  | .ok s' => s'
  | .error msg => { s with panic := some msg }

def step (s : State) (a : Act) : Option State :=
  if s.panic = none then
    match a with
    | .write p bytes => if s.call p = .idle then some (s.setCall p (.write bytes)) else none
    | .run p ready => (runStep s p ready).map (settle s)
    | .intr ready => some (uartstart ready s)
  else none

/-- A step in which `uartputc` finds the ring full. -/
def FindsFull (s : State) : Act → Prop
  | .run p _ =>
    match s.call p with
    | .loop (_ :: _) | .woken _ _ => s.Full
    | _ => False
  | _ => False

/-- The rule is decidable. -/
instance (s : State) (a : Act) : Decidable (FindsFull s a) := by
  unfold FindsFull
  split <;> try split
  all_goals infer_instance

/-- The bytes that wait in the ring. -/
def unsent (s : State) : List UInt8 :=
  Lib.buffered uartTxBufSize uartTxBufSize s.buf s.r s.w

/-! ## The ring -/

/-- The ring between two critical sections. -/
structure Ring (s : State) : Prop where
  r_lt : s.r < uartTxBufSize
  w_lt : s.w < uartTxBufSize
  passed_eq : s.passed = s.sent ++ unsent s

/-- Nothing but the ring and the sleepers is changed by `uartstart`. -/
structure Frame (s s' : State) : Prop where
  consLock : s'.consLock = s.consLock
  cpu : s'.cpu = s.cpu
  passed : s'.passed = s.passed
  panic : s'.panic = s.panic
  call : ∀ p, (∀ c bytes, s.call p ≠ .asleep c bytes) → s'.call p = s.call p

/-- Nothing has changed. -/
theorem Frame.refl (s : State) : Frame s s :=
  ⟨rfl, rfl, rfl, rfl, fun _ _ => rfl⟩

/-- Sending wakes up only those asleep. -/
theorem call_send {s : State} {p : Nat} (hp : ∀ c bytes, s.call p ≠ .asleep c bytes) :
    s.send.call p = s.call p := by
  change (match s.call p with | .asleep c bytes => Call.woken c bytes | other => other) = s.call p
  split
  next heq =>
    exact absurd heq (hp _ _)
  · rfl

/-- Sending a byte. -/
theorem Ring.send {s : State} (h : Ring s) (hne : s.w ≠ s.r) : Ring s.send where
  r_lt := Nat.mod_lt _ (by decide)
  w_lt := h.w_lt
  passed_eq := by
    have hpop : unsent s = s.buf (s.r % uartTxBufSize) :: unsent s.send :=
      Lib.buffered_pop h.r_lt h.w_lt hne.symm
    rw [Nat.mod_eq_of_lt h.r_lt] at hpop
    calc s.passed = s.sent ++ unsent s := h.passed_eq
      _ = s.sent ++ (s.buf s.r :: unsent s.send) := by rw [hpop]
      _ = s.send.sent ++ unsent s.send := by
        change _ = (s.sent ++ [s.buf s.r]) ++ _
        simp

/-- `uartstart` sends bytes and changes nothing else. -/
theorem uartstart_spec {s : State} (ready : Nat) (h : Ring s) :
    Ring (uartstart ready s) ∧ Frame s (uartstart ready s) := by
  induction ready generalizing s with
  | zero => exact ⟨h, .refl s⟩
  | succ ready ih =>
    unfold uartstart
    split
    · exact ⟨h, .refl s⟩
    next hne =>
      obtain ⟨hring, hframe⟩ := ih (h.send hne)
      refine ⟨hring, hframe.consLock, hframe.cpu, hframe.passed, hframe.panic, ?_⟩
      intro p hp
      have hsend := call_send hp
      rw [hframe.call p (by rw [hsend]; exact hp), hsend]

/-- Storing a byte. -/
theorem Ring.store {s : State} (h : Ring s) (hfull : ¬ s.Full) (c : UInt8) :
    Ring { s.store c with passed := s.passed ++ [c] } where
  r_lt := h.r_lt
  w_lt := Nat.mod_lt _ (by decide)
  passed_eq := by
    have hlt : Lib.ahead uartTxBufSize s.r s.w < uartTxBufSize := Nat.mod_lt _ (by decide)
    have hne : Lib.ahead uartTxBufSize s.r s.w + 1 ≠ uartTxBufSize :=
      fun heq => hfull ((Lib.succ_eq_iff_ahead h.r_lt h.w_lt).mpr heq)
    have hpush : Lib.buffered uartTxBufSize uartTxBufSize
        (update s.buf (s.w % uartTxBufSize) c) s.r ((s.w + 1) % uartTxBufSize) =
          unsent s ++ [c] :=
      Lib.buffered_push_of_room (dvd_refl _) h.r_lt h.w_lt hlt (by omega) c
    rw [Nat.mod_eq_of_lt h.w_lt] at hpush
    calc s.passed ++ [c] = s.sent ++ (unsent s ++ [c]) := by rw [h.passed_eq, List.append_assoc]
      _ = s.sent ++ unsent (s.store c) := by rw [← hpush]; rfl

/-! ## The locks -/

/-- A process that is in the loop has `cons.lock`, and no other has an open `push_off`.  No
process gets through the call of `sleep`. -/
def Place (s : State) (p : Nat) : Prop :=
  match s.call p with
  | .idle | .write _ => s.consLock ≠ some p ∧ (s.cpu p).noff = 0
  | .loop _ => s.consLock = some p ∧ (s.cpu p).noff = 1 ∧ (s.cpu p).intr = false
  | .asleep _ _ | .woken _ _ => False

structure Wf (s : State) : Prop extends Ring s where
  place : ∀ p, Place s p

/-- The invariant holds at boot. -/
theorem wf_boot (buf : Nat → UInt8) (intena intr : Nat → Bool) : Wf (boot buf intena intr) where
  r_lt := Nat.zero_lt_succ _
  w_lt := Nat.zero_lt_succ _
  passed_eq := by
    have hempty : unsent (boot buf intena intr) = [] :=
      Lib.buffered_empty buf (Nat.zero_lt_succ _)
    rw [hempty]
    rfl
  place p := ⟨nofun, rfl⟩

/-- `pop_off` with interrupts off. -/
theorem pop_eq {s : State} {p : Nat} (hpos : 0 < (s.cpu p).noff)
    (hintr : (s.cpu p).intr = false) :
    s.pop p = .ok { s with cpu := update s.cpu p { s.cpu p with
      noff := (s.cpu p).noff - 1
      intr := decide ((s.cpu p).noff = 1) && (s.cpu p).intena } } := by
  unfold State.pop
  rw [Cpu.popOff_eq hpos hintr]

/-- `push_off` on the CPU of the process. -/
theorem cpu_push (s : State) (p : Nat) :
    (s.push p).cpu p = (s.cpu p).pushOff (s.cpu p).intr :=
  update_self _ _ _

/-- With `cons.lock` still held, the `noff` that `sched` finds is two. -/
theorem sleep_eq {s : State} {p : Nat} (hnoff : (s.cpu p).noff = 2) (c : UInt8)
    (bytes : List UInt8) : sleep s p c bytes = .error "sched locks" := by
  have hcpu := cpu_push s p
  have hpos : 0 < ((s.push p).cpu p).noff := by
    rw [hcpu]
    exact Nat.succ_pos _
  unfold sleep
  rw [pop_eq hpos (by rw [hcpu]; rfl)]
  simp [bind, Except.bind, Cpu.schedPanic, hcpu, Cpu.pushOff, hnoff]

/-- Nobody is asleep. -/
theorem Wf.not_asleep {s : State} (h : Wf s) (p : Nat) (c : UInt8) (bytes : List UInt8) :
    s.call p ≠ .asleep c bytes := by
  intro hcall
  have hplace := h.place p
  unfold Place at hplace
  rw [hcall] at hplace
  exact hplace

/-- A process in the loop has the lock. -/
theorem Wf.loop {s : State} {p : Nat} {bytes : List UInt8} (h : Wf s)
    (hcall : s.call p = .loop bytes) :
    s.consLock = some p ∧ (s.cpu p).noff = 1 ∧ (s.cpu p).intr = false := by
  have hplace := h.place p
  unfold Place at hplace
  rw [hcall] at hplace
  exact hplace

/-- The processes after a step of one of them. -/
theorem Place.of_step {s s' : State} (p : Nat) (h : ∀ q, Place s q) (hp : Place s' p)
    (hcall : ∀ q, q ≠ p → s'.call q = s.call q) (hcpu : ∀ q, q ≠ p → s'.cpu q = s.cpu q)
    (hlock : ∀ q, q ≠ p → (s'.consLock = some q ↔ s.consLock = some q)) (q : Nat) :
    Place s' q := by
  obtain rfl | hne := eq_or_ne q p
  · exact hp
  · have hplace := h q
    unfold Place at hplace ⊢
    rw [hcall q hne, hcpu q hne, Ne, hlock q hne]
    exact hplace

/-- A call of `uartputc` that finds room. -/
theorem uartputc_room {s : State} {p : Nat} {c : UInt8} {bytes : List UInt8} (h : Wf s)
    (hcall : s.call p = .loop (c :: bytes)) (hroom : ¬ s.Full) (ready : Nat) :
    ∃ s', uartputc s p c bytes ready = .ok s' ∧ Wf s' ∧ s'.panic = s.panic := by
  obtain ⟨hlock, hnoff, hintr⟩ := h.loop hcall
  have hroom' : ¬ ({ s with passed := s.passed ++ [c] }.push p).Full := hroom
  unfold uartputc putLoop
  rw [if_neg hroom']
  -- The state at the call of `uartstart`.
  generalize hs₁ : ((({ s with passed := s.passed ++ [c] }.push p).store c).setCall p
    (.loop bytes)) = s₁
  have hring₁ : Ring s₁ := by
    have hstore := h.toRing.store hroom c
    rw [← hs₁]
    exact { hstore with }
  have hcpu₁ : s₁.cpu = update s.cpu p ⟨2, (s.cpu p).intena, false⟩ := by
    rw [← hs₁]
    change update s.cpu p _ = _
    simp [Cpu.pushOff, hnoff]
  have hcall₁ : s₁.call = update s.call p (.loop bytes) := by
    rw [← hs₁]
    rfl
  have hlock₁ : s₁.consLock = s.consLock := by
    rw [← hs₁]
    rfl
  have hnot : ∀ q d ds, s₁.call q ≠ .asleep d ds := by
    intro q d ds
    rw [hcall₁, update_apply]
    split
    · exact nofun
    · exact h.not_asleep q d ds
  obtain ⟨hring, hframe⟩ := uartstart_spec ready hring₁
  have hcpu : (uartstart ready s₁).cpu p = ⟨2, (s.cpu p).intena, false⟩ := by
    rw [hframe.cpu, hcpu₁, update_self]
  refine ⟨_, pop_eq (by rw [hcpu]; exact Nat.two_pos) (by rw [hcpu]),
    ⟨{ hring with }, ?_⟩, ?_⟩
  · apply Place.of_step p h.place
    · unfold Place
      simp only [hframe.call p (hnot p), hcall₁, update_self, hframe.consLock, hlock₁,
        hcpu, hlock]
      exact ⟨trivial, trivial, rfl⟩
    · intro q hne
      simp only [hframe.call q (hnot q), hcall₁, update_of_ne hne]
    · intro q hne
      simp only [update_of_ne hne, hframe.cpu, hcpu₁]
    · intro q _
      simp only [hframe.consLock, hlock₁]
  · change (uartstart ready s₁).panic = s.panic
    rw [hframe.panic, ← hs₁]
    rfl

/-- A `uartputc` that finds the ring full. -/
theorem uartputc_full {s : State} {p : Nat} {c : UInt8} {bytes : List UInt8} (h : Wf s)
    (hcall : s.call p = .loop (c :: bytes)) (hfull : s.Full) (ready : Nat) :
    uartputc s p c bytes ready = .error "sched locks" := by
  obtain ⟨hlock, hnoff, hintr⟩ := h.loop hcall
  have hfull' : ({ s with passed := s.passed ++ [c] }.push p).Full := hfull
  unfold uartputc putLoop
  rw [if_pos hfull']
  apply sleep_eq
  rw [cpu_push]
  simp [Cpu.pushOff, hnoff]

/-! ## Every step -/

/-- Taking `cons.lock`. -/
theorem Wf.acquire {s : State} {p : Nat} {bytes : List UInt8} (h : Wf s)
    (hcall : s.call p = .write bytes) (hfree : s.consLock = none) :
    Wf ({ s with consLock := some p }.push p |>.setCall p (.loop bytes)) where
  r_lt := h.r_lt
  w_lt := h.w_lt
  passed_eq := h.passed_eq
  place := by
    have hplace := h.place p
    unfold Place at hplace
    rw [hcall] at hplace
    apply Place.of_step p h.place
    · simp [Place, State.setCall, State.push, Cpu.pushOff, hplace.2]
    · intro q hne
      exact update_of_ne hne _ _
    · intro q hne
      exact update_of_ne hne _ _
    · intro q hne
      simp [State.setCall, State.push, hfree, hne.symm]

/-- The return of `consolewrite`. -/
theorem release_spec {s : State} {p : Nat} (h : Wf s) (hcall : s.call p = .loop []) :
    ∃ s', ({ s with consLock := none }.setCall p .idle).pop p = .ok s' ∧ Wf s' ∧
      s'.panic = s.panic := by
  obtain ⟨hlock, hnoff, hintr⟩ := h.loop hcall
  have hpos : 0 < (s.cpu p).noff := by omega
  refine ⟨_, pop_eq hpos hintr, ⟨{ h with }, ?_⟩, rfl⟩
  apply Place.of_step p h.place
  · simp [Place, State.setCall, hnoff]
  · intro q hne
    exact update_of_ne hne _ _
  · intro q hne
    exact update_of_ne hne _ _
  · intro q hne
    simp [State.setCall, hlock, hne.symm]

/-- The step lemma. -/
theorem wf_step {s s' : State} {a : Act} (h : Wf s) (hstep : step s a = some s') :
    Wf s' ∧ s'.panic = if FindsFull s a then some "sched locks" else none := by
  obtain ⟨hpanic, hstep⟩ := Option.ite_none_right_eq_some.mp hstep
  cases a with
  | write p bytes =>
    obtain ⟨hidle, ⟨⟩⟩ := Option.ite_none_right_eq_some.mp hstep
    refine ⟨⟨{ h with }, ?_⟩, hpanic⟩
    have hplace := h.place p
    unfold Place at hplace
    rw [hidle] at hplace
    apply Place.of_step p h.place
    · simpa [Place, State.setCall] using hplace
    · intro q hne
      exact update_of_ne hne _ _
    · intro q _
      rfl
    · intro q _
      rfl
  | intr ready =>
    cases hstep
    obtain ⟨hring, hframe⟩ := uartstart_spec ready h.toRing
    refine ⟨⟨hring, ?_⟩, hframe.panic.trans hpanic⟩
    intro q
    have hplace := h.place q
    unfold Place at hplace ⊢
    rw [hframe.call q (h.not_asleep q), hframe.consLock, hframe.cpu]
    exact hplace
  | run p ready =>
    obtain ⟨res, hres, rfl⟩ := Option.map_eq_some_iff.mp hstep
    have hplace := h.place p
    unfold runStep at hres
    unfold FindsFull
    unfold Place at hplace
    split at hres
    · cases hres
    next bytes hcall =>
      obtain ⟨hfree, ⟨⟩⟩ := Option.ite_none_right_eq_some.mp hres
      simp only [hcall, if_false]
      exact ⟨h.acquire hcall hfree, hpanic⟩
    next hcall =>
      cases hres
      obtain ⟨s', heq, hwf, hp⟩ := release_spec h hcall
      simp only [hcall, if_false, heq]
      exact ⟨hwf, hp.trans hpanic⟩
    next c bytes hcall =>
      cases hres
      simp only [hcall]
      split
      next hfull =>
        rw [uartputc_full h hcall hfull]
        exact ⟨⟨{ h with }, h.place⟩, rfl⟩
      next hroom =>
        obtain ⟨s', heq, hwf, hp⟩ := uartputc_room h hcall hroom ready
        rw [heq]
        exact ⟨hwf, hp.trans hpanic⟩
    · cases hres
    next c bytes hcall =>
      rw [hcall] at hplace
      exact hplace.elim

section Runs

variable {s : State} {buf : Nat → UInt8} {intena intr : Nat → Bool}

/-- The invariant holds after every run. -/
theorem Wf.of_run {rule : State → Act → Prop}
    (hrun : Lib.Run step rule (boot buf intena intr) s) : Wf s :=
  hrun.invariant (wf_boot buf intena intr) fun _ _ _ h _ hstep => (wf_step h hstep).1

/-- The bytes written to `THR` are those passed to `uartputc`, in their order, but for at
most 31 that wait in the ring.  A run in which no `uartputc` finds the ring full
does not panic, and a step in which one does panics in `sched`. -/
theorem console_panics_iff_full :
    (∀ s, Lib.Run step (fun _ _ => True) (boot buf intena intr) s →
      (s.passed = s.sent ++ unsent s ∧ (unsent s).length < uartTxBufSize) ∧
      ∀ a s', step s a = some s' →
        s'.panic = if FindsFull s a then some "sched locks" else none) ∧
    ∀ s, Lib.Run step (fun s a => ¬ FindsFull s a) (boot buf intena intr) s → s.panic = none := by
  constructor
  · intro s hrun
    have h := Wf.of_run hrun
    refine ⟨⟨h.passed_eq, ?_⟩, fun a s' hstep => (wf_step h hstep).2⟩
    unfold unsent
    rw [Lib.length_buffered]
    exact Nat.mod_lt _ (Nat.zero_lt_succ _)
  · intro s hrun
    have h : Wf s ∧ s.panic = none := by
      apply hrun.invariant (I := fun s => Wf s ∧ s.panic = none) ⟨wf_boot buf intena intr, rfl⟩
      intro t a t' ht hroom hstep
      obtain ⟨hwf, hp⟩ := wf_step ht.1 hstep
      rw [if_neg hroom] at hp
      exact ⟨hwf, hp⟩
    exact h.2

end Runs

/-- One process writes 32 bytes to a UART that is never ready. -/
def stalled : List Act :=
  .write 0 (List.replicate 32 65) :: List.replicate 33 (.run 0 0)

theorem console_panics_stalled :
    ∃ s, Lib.Run step (fun _ _ => True) (boot (fun _ => 0) (fun _ => true) (fun _ => true)) s ∧
      s.panic = some "sched locks" := by
  have hexec : (Lib.exec step (fun _ _ => True)
      (boot (fun _ => 0) (fun _ => true) (fun _ => true)) stalled).map (·.panic) =
        some (some "sched locks") := by
    decide +kernel
  exact Lib.exec_reaches hexec

theorem console_panics_iff_full_one_byte :
    ∃ s, Lib.Run step (fun s a => ¬ FindsFull s a)
        (boot (fun _ => 0) (fun _ => true) (fun _ => true)) s ∧
      (s.passed = [65, 66] ∧ s.sent = [65]) ∧ s.panic = none ∧ s.passed = s.sent ++ unsent s := by
  have hexec : (Lib.exec step (fun s a => ¬ FindsFull s a)
      (boot (fun _ => 0) (fun _ => true) (fun _ => true))
        [.write 0 [65, 66], .run 0 0, .run 0 0, .run 0 0, .run 0 0, .intr 1]).map
          (fun s => decide (s.passed = [65, 66] ∧ s.sent = [65])) = some true := by
    decide +kernel
  obtain ⟨s, hrun, hs⟩ := Lib.exec_reaches hexec
  obtain ⟨hany, hroom⟩ := @console_panics_iff_full (fun _ => 0) (fun _ => true) (fun _ => true)
  exact ⟨s, hrun, of_decide_eq_true hs, hroom s hrun,
    (hany s (hrun.mono fun _ _ _ => trivial)).1.1⟩

end Uart
end Xv6
