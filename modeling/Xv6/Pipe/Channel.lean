import Mathlib.Tactic
import Xv6.Pipe.Protocol

/-!
# Pipes are FIFO channels

Main results:

- Theorem {lit}`Inv.step`: the channel invariant is kept by every step of every
  process whose buffer is mapped.
- Theorem {lit}`pipe_is_fifo`: in every run the bytes delivered followed by the bytes
  buffered are the bytes stored, a call returns the number of bytes it has stored or
  delivered, and a read returns at least one byte, or none at the end of the stream.
-/

namespace Xv6
namespace PipeIo

open Lib State Function

/-! ## Observations -/

/-- The bytes in the buffer, oldest first. -/
def State.queue (s : State) : List UInt8 := buffered (2 ^ 32) pipesize s.data s.nread s.nwrite

/-- The bytes of one process in a history. -/
def bytesOf (p : Nat) (history : List (Nat × UInt8)) : List UInt8 :=
  (history.filter fun x => x.1 = p).map Prod.snd

/-- What a write in progress has stored. -/
@[simp]
def Call.progress : Call → List UInt8
  | .writeFor src _ i | .writeSleep src _ i => taken src i
  | _ => []

/-- How many bytes a read in progress has delivered. -/
@[simp]
def Call.fetched : Call → Nat
  | .readFor _ _ i => i
  | _ => 0

/-- The buffer of the call is mapped. -/
def Call.Mapped : Call → Prop
  | .write src n | .writeFor src n _ | .writeSleep src n _ => ∀ i : Nat, i < n → src i ≠ none
  | .read dst n | .readWait dst n | .readSleep dst n | .readFor dst n _ =>
    ∀ i : Nat, i < n → dst i = true
  | _ => True

/-- All calls are made with mapped buffers. -/
def Mapped (_ : State) : Act → Prop
  | .write _ src n => (Call.write src n).Mapped
  | .read _ dst n => (Call.read dst n).Mapped
  | _ => True

/-- Whether a buffer is mapped can be evaluated, since only `n` bytes count. -/
instance (s : State) : DecidablePred (Mapped s)
  | .write _ src n => decidable_of_iff (∀ i < n.toNat, src i ≠ none)
      ⟨fun h i hi => h i (Int.lt_toNat.2 hi), fun h i hi => h i (Int.lt_toNat.1 hi)⟩
  | .read _ dst n => decidable_of_iff (∀ i < n.toNat, dst i = true)
      ⟨fun h i hi => h i (Int.lt_toNat.2 hi), fun h i hi => h i (Int.lt_toNat.1 hi)⟩
  | .close _ _ | .run _ | .kill _ => isTrue trivial

/-- A byte of the process itself is its last one. -/
theorem bytesOf_append_self (p : Nat) (history : List (Nat × UInt8)) (ch : UInt8) :
    bytesOf p (history ++ [(p, ch)]) = bytesOf p history ++ [ch] := by
  simp [bytesOf]

/-- A byte of another process is not its byte. -/
theorem bytesOf_append_of_ne {p q : Nat} (hne : p ≠ q) (history : List (Nat × UInt8))
    (ch : UInt8) : bytesOf q (history ++ [(p, ch)]) = bytesOf q history := by
  simp [bytesOf, hne]

/-- One more offset of a buffer. -/
theorem taken_succ {src : Nat → Option UInt8} {i : Nat} {ch : UInt8} (hch : src i = some ch) :
    taken src (i + 1) = taken src i ++ [ch] := by
  simp [taken, List.range_succ, hch]

/-! ## The queue -/

/-- The counters delimit a queue, which links the two histories. -/
structure Queue (s : State) : Prop where
  read_lt : s.nread < 2 ^ 32
  write_lt : s.nwrite < 2 ^ 32
  room : ahead (2 ^ 32) s.nread s.nwrite ≤ pipesize
  fifo : s.delivered.map Prod.snd ++ s.queue = s.stored.map Prod.snd

namespace Queue

variable {s : State} {p : Nat}

/-- The test for a full buffer is right in spite of the wrapping counters. -/
theorem full_iff (h : Queue s) : s.full ↔ ahead (2 ^ 32) s.nread s.nwrite = pipesize :=
  eq_add_iff_ahead h.read_lt h.write_lt (show pipesize < 2 ^ 32 by decide)

/-- Storing a byte puts it behind the others. -/
theorem put (h : Queue s) (hroom : ¬s.full) (ch : UInt8) : Queue (s.put p ch) := by
  have hlt : ahead (2 ^ 32) s.nread s.nwrite < pipesize :=
    lt_of_le_of_ne h.room fun heq => hroom (h.full_iff.mpr heq)
  have hsmall : pipesize < 2 ^ 32 := by decide
  refine ⟨h.read_lt, uint_lt _, ?_, ?_⟩
  · change ahead (2 ^ 32) s.nread ((s.nwrite + 1) % 2 ^ 32) ≤ pipesize
    rw [ahead_push h.read_lt h.write_lt (by omega)]
    exact hlt
  · change s.delivered.map Prod.snd ++ buffered (2 ^ 32) pipesize
        (update s.data (s.nwrite % pipesize) ch) s.nread ((s.nwrite + 1) % 2 ^ 32) =
      (s.stored ++ [(p, ch)]).map Prod.snd
    rw [buffered_push (by decide) h.read_lt h.write_lt hlt hsmall, ← List.append_assoc,
      List.map_append]
    exact congrArg (· ++ [ch]) h.fifo

/-- Delivering a byte takes the oldest one. -/
theorem take (h : Queue s) (hne : s.nread ≠ s.nwrite) : Queue (s.take p) := by
  have hpop := ahead_pop h.read_lt h.write_lt hne
  refine ⟨uint_lt _, h.write_lt, ?_, ?_⟩
  · have := h.room
    change ahead (2 ^ 32) ((s.nread + 1) % 2 ^ 32) s.nwrite ≤ pipesize
    omega
  · have hfifo := h.fifo
    unfold State.queue at hfifo
    rw [buffered_pop h.read_lt h.write_lt hne] at hfifo
    change (s.delivered ++ [(p, s.next)]).map Prod.snd ++ buffered (2 ^ 32) pipesize s.data
      ((s.nread + 1) % 2 ^ 32) s.nwrite = s.stored.map Prod.snd
    rw [List.map_append, List.append_assoc]
    exact hfifo

end Queue

/-! ## The invariant -/

/-- What holds of one process. -/
structure User (s : State) (p : Nat) : Prop where
  holder : (s.call p).locked = true ↔ s.lock = some p
  mapped : (s.call p).Mapped
  writes : bytesOf p s.stored = s.written p ++ (s.call p).progress
  reads : (bytesOf p s.delivered).length = s.returned p + (s.call p).fetched
  -- the first loop of `piperead` has been left and the lock held since
  ready : ∀ dst n, s.call p = .readFor dst n 0 → s.nread = s.nwrite → s.writeopen = false
  bound : ∀ dst n i, s.call p = .readFor dst n i → i = 0 ∨ (i : Int) ≤ n

/-- The state of the channel and of its users. -/
structure Inv (s : State) : Prop where
  queue : Queue s
  users : ∀ p, User s p

/-- The process `q` is not concerned by a step from `s` to `s'`. -/
structure Aside (s s' : State) (q : Nat) : Prop where
  call : s'.call q = s.call q
  lock : s'.lock = some q ↔ s.lock = some q
  stored : bytesOf q s'.stored = bytesOf q s.stored
  written : s'.written q = s.written q
  delivered : bytesOf q s'.delivered = bytesOf q s.delivered
  returned : s'.returned q = s.returned q
  pipe : s.lock = some q →
    s'.nread = s.nread ∧ s'.nwrite = s.nwrite ∧ s'.writeopen = s.writeopen

section Steps

variable {s s' : State} {p : Nat} {src : Nat → Option UInt8} {dst : Nat → Bool} {n : Int} {i : Nat}

/-- A process that a step does not concern keeps its invariant. -/
theorem User.aside (h : User s p) (ha : Aside s s' p) : User s' p where
  holder := by rw [ha.call, ha.lock, h.holder]
  mapped := ha.call ▸ h.mapped
  writes := by rw [ha.stored, ha.written, ha.call, h.writes]
  reads := by rw [ha.delivered, ha.returned, ha.call, h.reads]
  ready d m hc := by
    rw [ha.call] at hc
    obtain ⟨hr, hw, ho⟩ := ha.pipe (h.holder.mp (by rw [hc]; rfl))
    rw [hr, hw, ho]
    exact h.ready d m hc
  bound d m j hc := h.bound d m j (ha.call ▸ hc)

/-- A step of `p` that leaves the other processes aside. -/
theorem Inv.update (h : Inv s) (hqueue : Queue s') (hself : User s' p)
    (hothers : ∀ q, q ≠ p → Aside s s' q) : Inv s' := by
  refine ⟨hqueue, fun q => ?_⟩
  by_cases hq : q = p
  · exact hq ▸ hself
  · exact (h.users q).aside (hothers q hq)

/-- The lock has one holder. -/
theorem Inv.alone (h : Inv s) (hp : (s.call p).locked = true) {q : Nat} (hq : q ≠ p) :
    s.lock ≠ some q := by
  rw [(h.users p).holder.mp hp]
  intro heq
  exact hq (Option.some.inj heq).symm

/-- A new pipe is empty. -/
theorem Queue.init (data : Nat → UInt8) : Queue (pipealloc data) := by
  have hpos : 0 < 2 ^ 32 := Nat.two_pow_pos 32
  have hempty : (pipealloc data).queue = [] := buffered_empty data hpos
  refine ⟨hpos, hpos, ?_, ?_⟩
  · exact ((ahead_eq_zero hpos hpos).mpr rfl).trans_le (Nat.zero_le _)
  · rw [hempty]
    rfl

/-- A new pipe satisfies the invariant. -/
theorem Inv.init (data : Nat → UInt8) : Inv (pipealloc data) where
  queue := .init data
  users _ := {
    holder := by simp [pipealloc]
    mapped := trivial
    writes := rfl
    reads := rfl
    ready := fun _ _ h => by cases h
    bound := fun _ _ _ h => by cases h }

/-- Sleeping, waking and killing do not concern the channel. -/
theorem Inv.congr (h : Inv s) (asleep : Nat → Option Chan) (killed : Nat → Bool) (fresh : Nat) :
    Inv { s with asleep := asleep, killed := killed, fresh := fresh } where
  queue := { h.queue with }
  users p := ⟨(h.users p).holder, (h.users p).mapped, (h.users p).writes, (h.users p).reads,
    (h.users p).ready, (h.users p).bound⟩

/-- `p` goes to the place `c` and leaves the buffer alone. -/
theorem Inv.goes {c : Call} (h : Inv s) (hcall : s'.call = Function.update s.call p c)
    (hpipe : s'.data = s.data ∧ s'.nread = s.nread ∧ s'.nwrite = s.nwrite ∧
      s'.stored = s.stored ∧ s'.delivered = s.delivered)
    (hlock : c.locked = true ↔ s'.lock = some p)
    (hothers : ∀ q, q ≠ p → (s'.lock = some q ↔ s.lock = some q) ∧
      s'.written q = s.written q ∧ s'.returned q = s.returned q)
    (hopen : s.lock = none ∨ s'.writeopen = s.writeopen) (hmapped : c.Mapped)
    (hwrites : s'.written p ++ c.progress = s.written p ++ (s.call p).progress)
    (hreads : s'.returned p + c.fetched = s.returned p + (s.call p).fetched)
    (hloop : ∀ d m i, c = .readFor d m i →
      i = 0 ∧ (s.nread = s.nwrite → s'.writeopen = false)) : Inv s' := by
  obtain ⟨hdata, hnread, hnwrite, hstored, hdelivered⟩ := hpipe
  have hself : s'.call p = c := by rw [hcall, update_self]
  refine h.update (p := p) ?_ ⟨?_, ?_, ?_, ?_, ?_, ?_⟩ fun q hq => ⟨?_, ?_, ?_, ?_, ?_, ?_, ?_⟩
  · obtain ⟨hr, hw, hroom, hfifo⟩ := h.queue
    constructor <;> simpa only [State.queue, hdata, hnread, hnwrite, hstored, hdelivered]
  · rw [hself, hlock]
  · rw [hself]
    exact hmapped
  · rw [hself, hstored, hwrites, (h.users p).writes]
  · rw [hself, hdelivered, hreads, (h.users p).reads]
  · intro d m hc
    rw [hnread, hnwrite]
    exact (hloop d m 0 (hself.symm.trans hc)).2
  · exact fun d m i hc => Or.inl (hloop d m i (hself.symm.trans hc)).1
  · rw [hcall, update_of_ne hq]
  · exact (hothers q hq).1
  · rw [hstored]
  · exact (hothers q hq).2.1
  · rw [hdelivered]
  · exact (hothers q hq).2.2
  · intro hp
    exact ⟨hnread, hnwrite, hopen.resolve_left (by simp [hp])⟩

/-- A call without the lock has delivered nothing. -/
theorem Call.fetched_of_not_locked {c : Call} (h : c.locked = false) : c.fetched = 0 := by
  cases c with
  | readFor d m i => cases h
  | _ => rfl

/-- A process that is not in the pipe starts a call. -/
theorem Inv.start {c : Call} (h : Inv s) (hstart : start s p c = some s') (hmapped : c.Mapped)
    (hlocked : c.locked = false) (hprogress : c.progress = []) : Inv s' := by
  unfold PipeIo.start at hstart
  split at hstart
  next ret hidle =>
    cases hstart
    have hholder := (h.users p).holder
    rw [hidle] at hholder
    refine h.goes rfl ⟨rfl, rfl, rfl, rfl, rfl⟩ ?_ (fun _ _ => ⟨Iff.rfl, rfl, rfl⟩) (Or.inr rfl)
      hmapped ?_ ?_ ?_
    · rw [hlocked]
      exact hholder
    · rw [hidle, hprogress]
      rfl
    · rw [hidle, Call.fetched_of_not_locked hlocked]
      rfl
    · rintro d m i rfl
      cases hlocked
  next => cases hstart

/-- What a call has stored and delivered when it takes the lock. -/
theorem Call.of_entry {c c' : Call} (h : c.entry = some c') :
    c'.locked = true ∧ c'.progress = c.progress ∧ c'.fetched = 0 ∧ c.fetched = 0 ∧
      (c.Mapped → c'.Mapped) ∧ ∀ d m i, c' ≠ .readFor d m i := by
  cases c <;> cases h <;> exact ⟨rfl, rfl, rfl, rfl, id, by simp⟩

/-- The holder of the lock gives it up, in `sleep`. -/
theorem Inv.sleeps {c : Call} {ch : Chan} (h : Inv s) (hold : (s.call p).locked = true)
    (hmapped : c.Mapped) (hlocked : c.locked = false) (hprogress : c.progress = (s.call p).progress)
    (hwas : (s.call p).fetched = 0) : Inv ((s.sleep p ch).setCall p c) := by
  refine h.goes rfl ⟨rfl, rfl, rfl, rfl, rfl⟩ ?_ (fun q hq => ⟨?_, rfl, rfl⟩) (Or.inr rfl) hmapped
    ?_ ?_ ?_
  · rw [hlocked]
    simp [State.sleep]
  · simp [State.sleep, h.alone hold hq]
  · rw [hprogress]
    rfl
  · rw [hwas, Call.fetched_of_not_locked hlocked]
    rfl
  · rintro d m i rfl
    cases hlocked

/-- A write ends. -/
theorem Inv.leaveWrite {ret : Int} (h : Inv s) (hc : s.call p = .writeFor src n i) :
    Inv (s.leaveWrite p src i ret) := by
  refine h.goes (c := .idle ret) rfl ⟨rfl, rfl, rfl, rfl, rfl⟩ (by simp)
    (fun q hq => ⟨?_, update_of_ne hq _ _, rfl⟩) (Or.inr rfl) trivial ?_ ?_ (by simp)
  · simp [h.alone (by rw [hc]; rfl) hq]
  · simp [hc]
  · simp [hc]

/-- A read ends and returns the number of bytes it has delivered. -/
theorem Inv.leaveRead {ret : Int} (h : Inv s) (hold : (s.call p).locked = true)
    (hprogress : (s.call p).progress = []) (hret : (s.call p).fetched = ret.toNat) :
    Inv (s.leaveRead p ret) := by
  refine h.goes (c := .idle ret) rfl ⟨rfl, rfl, rfl, rfl, rfl⟩ (by simp)
    (fun q hq => ⟨?_, rfl, update_of_ne hq _ _⟩) (Or.inr rfl) trivial ?_ ?_ (by simp)
  · simp [h.alone hold hq]
  · rw [hprogress]
    rfl
  · rw [hret]
    simp

/-- `pipewrite` stores a byte. -/
theorem Inv.put {ch : UInt8} (h : Inv s) (hc : s.call p = .writeFor src n i) (hroom : ¬s.full)
    (hch : src i = some ch) : Inv ((s.put p ch).setCall p (.writeFor src n (i + 1))) := by
  have hu := h.users p
  have hlock := fun {q} => h.alone (p := p) (q := q) (by rw [hc]; rfl)
  have hq := h.queue.put (p := p) hroom ch
  refine h.update (p := p) { hq with } ?_ ?_
  · constructor
    · simpa [hc] using hu.holder
    · simpa [hc, Call.Mapped] using hu.mapped
    · have hw := hu.writes
      rw [hc] at hw
      simp only [setCall, State.put, update_self, Call.progress] at hw ⊢
      rw [bytesOf_append_self, hw, taken_succ hch, List.append_assoc]
    · simpa [hc] using hu.reads
    · intro d m hc'
      simp [setCall] at hc'
    · intro d m j hc'
      simp [setCall] at hc'
  · intro q hq
    exact ⟨update_of_ne hq _ _, Iff.rfl, bytesOf_append_of_ne (Ne.symm hq) _ _, rfl, rfl,
      rfl, fun hp => absurd hp (hlock hq)⟩

/-- `piperead` delivers a byte. -/
theorem Inv.take (h : Inv s) (hc : s.call p = .readFor dst n i) (hne : s.nread ≠ s.nwrite)
    (hi : i < n) : Inv ((s.take p).setCall p (.readFor dst n (i + 1))) := by
  have hu := h.users p
  have hlock := fun {q} => h.alone (p := p) (q := q) (by rw [hc]; rfl)
  have hq := h.queue.take (p := p) hne
  refine h.update (p := p) { hq with } ?_ ?_
  · constructor
    · simpa [hc] using hu.holder
    · simpa [hc, Call.Mapped] using hu.mapped
    · simpa [hc] using hu.writes
    · have hr := hu.reads
      rw [hc] at hr
      simp only [setCall, State.take, skip, update_self, Call.fetched] at hr ⊢
      rw [bytesOf_append_self, List.length_append, hr]
      rfl
    · intro d m hc'
      simp [setCall] at hc'
    · intro d m j hc'
      obtain ⟨-, rfl, rfl⟩ : dst = d ∧ n = m ∧ i + 1 = j := by simpa [setCall] using hc'
      right
      exact_mod_cast hi
  · intro q hq
    exact ⟨update_of_ne hq _ _, Iff.rfl, rfl, rfl, bytesOf_append_of_ne (Ne.symm hq) _ _,
      rfl, fun hp => absurd hp (hlock hq)⟩

/-- The step lemma for a process that goes on with its call. -/
theorem Inv.run (h : Inv s) (hrun : runStep s p = some s') : Inv s' := by
  have hmapped := (h.users p).mapped
  have hholder := (h.users p).holder
  have hruns := runs_of_runStep hrun
  generalize hc : s.call p = c at hmapped hholder hruns
  -- the channel does not see who sleeps
  have hwake : ∀ ch, Inv (s.wakeup ch) := fun ch => h.congr _ s.killed s.fresh
  cases hruns with
  | acquire hentry hfree =>
    obtain ⟨hlocked, hprogress, hfetched, hwas, hmap, hnot⟩ := Call.of_entry hentry
    refine h.goes rfl ⟨rfl, rfl, rfl, rfl, rfl⟩ (by rw [hlocked]; simp)
      (fun q hq => ⟨by simp [hfree, Ne.symm hq], rfl, rfl⟩) (Or.inr rfl) (hmap hmapped) ?_ ?_
      fun d m i heq => absurd heq (hnot d m i)
    · rw [hc, hprogress]
      rfl
    · rw [hc, hfetched, hwas]
      rfl
  | refuse => exact h.leaveWrite hc
  | writeSleep =>
    exact (hwake _).sleeps (p := p) (by simp [hc]) hmapped rfl (by simp [hc]) (by simp [hc])
  | written => exact (hwake _).leaveWrite hc
  | put hi hroom hch => exact h.put hc hroom hch
  | killed => exact h.leaveRead (by rw [hc]; rfl) (by rw [hc]; rfl) (by rw [hc]; rfl)
  | readSleep => exact h.sleeps (by rw [hc]; rfl) hmapped rfl (by rw [hc]; rfl) (by rw [hc]; rfl)
  | fetch hexit =>
    refine h.goes rfl ⟨rfl, rfl, rfl, rfl, rfl⟩ hholder (fun _ _ => ⟨Iff.rfl, rfl, rfl⟩)
      (Or.inr rfl) hmapped (by simp [hc]) (by simp [hc]) ?_
    intro d m i heq
    cases heq
    exact ⟨rfl, fun heq => Bool.eq_false_iff.mpr fun hopen => hexit ⟨heq, hopen⟩⟩
  | delivered =>
    exact (hwake _).leaveRead (p := p) (by simp [hc]) (by simp [hc]) (by simp [hc])
  | take hi hne => exact h.take hc hne hi
  | fault hi hne hfault => exact absurd (hmapped _ hi) hfault
  | @close writable freed hfree =>
    cases writable <;>
      exact h.goes rfl ⟨rfl, rfl, rfl, rfl, rfl⟩ (by simp [closeEnd, hfree])
        (fun _ _ => ⟨Iff.rfl, rfl, rfl⟩) (Or.inl hfree) trivial (by simp [closeEnd, hc])
        (by simp [closeEnd, hc]) (by simp)

/-- The step lemma. -/
theorem Inv.step {a : Act} (h : Inv s) (hrule : Mapped s a) (hstep : step s a = some s') :
    Inv s' := by
  cases a with
  | write p src n => exact h.start hstep hrule rfl rfl
  | read p dst n => exact h.start hstep hrule rfl rfl
  | close p writable => exact h.start hstep trivial rfl rfl
  | run p =>
    obtain ⟨-, hstep⟩ := Option.ite_none_right_eq_some.mp hstep
    exact h.run hstep
  | kill p =>
    cases hstep
    exact h.congr _ _ s.fresh

/-- The run lemma. -/
theorem Inv.reaches {data : Nat → UInt8} (hrun : Run PipeIo.step Mapped (pipealloc data) s) :
    Inv s :=
  hrun.invariant (Inv.init data) fun _ _ _ h hrule hstep => h.step hrule hstep

/-! ## What the calls return -/

/-- The number of bytes that a read in its second loop has been asked for. -/
def Call.wants : Call → Option Int
  | .readFor _ n _ => some n
  | _ => none

/-- The call is `pipewrite` from the buffer `src`. -/
def Call.Writes (c : Call) (src : Nat → Option UInt8) : Prop :=
  ∃ n, c = .write src n ∨ ∃ i, c = .writeFor src n i ∨ c = .writeSleep src n i

/-- The call is `piperead` for `n` bytes. -/
def Call.Reads (c : Call) (n : Int) : Prop :=
  ∃ dst, c = .read dst n ∨ c = .readWait dst n ∨ c = .readSleep dst n ∨ ∃ i, c = .readFor dst n i

/-- A call in that loop is a read. -/
theorem Call.reads_of_wants {c : Call} (h : c.wants = some n) : c.Reads n := by
  cases c with
  | readFor dst m i => exact ⟨dst, Or.inr (Or.inr (Or.inr ⟨i, by rw [Option.some.inj h]⟩))⟩
  | _ => cases h

/-- The outcomes of `piperead` for `n` bytes: the caller has been killed, there were
bytes, or the stream has ended. -/
def Outcome (s : State) (p : Nat) (n ret : Int) : Prop :=
  (ret = -1 ∧ s.killed p = true) ∨ (1 ≤ ret ∧ ret ≤ n) ∨
    (ret = 0 ∧ s.nread = s.nwrite ∧ s.writeopen = false)

/-- Taking the lock does not return. -/
theorem acquire_not_idle {c : Call} {ret : Int} (hrun : runStep s p = some s')
    (hentry : (s.call p).entry = some c) : s'.call p ≠ .idle ret := by
  have hruns := runs_of_runStep hrun
  intro hret
  generalize s.call p = c' at hentry hruns
  cases hruns with
  | acquire hentry' =>
    cases hentry.symm.trans hentry'
    cases c' <;> cases hentry <;> simp at hret
  | _ => cases hentry

/-- A write that returns has stored the first bytes of its buffer, as many as it
returns unless it gives up. -/
theorem Inv.write_returns {ret : Int} (h : Inv s) (hc : (s.call p).Writes src)
    (hrun : runStep s p = some s') (hret : s'.call p = .idle ret) :
    ∃ i, bytesOf p s'.stored = s.written p ++ taken src i ∧
      (ret = i ∨ ret = -1 ∧ (s'.readopen = false ∨ s'.killed p = true)) := by
  have hwrites := (h.users p).writes
  obtain ⟨n, hc | ⟨i, hc | hc⟩⟩ := hc
  · exact (acquire_not_idle hrun (by rw [hc]; rfl) hret).elim
  · have hruns := runs_of_runStep hrun
    rw [hc] at hwrites hruns
    cases hruns with
    | acquire hentry => cases hentry
    | writeSleep | put => simp at hret
    | refuse hi hfull hgive =>
      obtain rfl : -1 = ret := by simpa using hret
      exact ⟨i, hwrites, Or.inr ⟨rfl, hgive⟩⟩
    | written =>
      obtain rfl : (i : Int) = ret := by simpa using hret
      exact ⟨i, hwrites, Or.inl rfl⟩
  · exact (acquire_not_idle hrun (by rw [hc]; rfl) hret).elim

/-- A read that returns has delivered as many bytes as it says, and has one of the
outcomes. -/
theorem Inv.read_returns {ret : Int} (h : Inv s) (hc : (s.call p).Reads n)
    (hrun : runStep s p = some s') (hret : s'.call p = .idle ret) :
    (bytesOf p s'.delivered).length = s.returned p + ret.toNat ∧
      (0 < n → Outcome s' p n ret) := by
  have hmapped := (h.users p).mapped
  have hreads := (h.users p).reads
  have hruns := runs_of_runStep hrun
  obtain ⟨dst, hc | hc | hc | ⟨i, hc⟩⟩ := hc
  · exact (acquire_not_idle hrun (by rw [hc]; rfl) hret).elim
  · rw [hc] at hreads hruns
    cases hruns with
    | acquire hentry => cases hentry
    | readSleep | fetch => simp at hret
    | killed hkilled =>
      obtain rfl : -1 = ret := by simpa using hret
      exact ⟨hreads, fun _ => Or.inl ⟨rfl, hkilled⟩⟩
  · exact (acquire_not_idle hrun (by rw [hc]; rfl) hret).elim
  · rw [hc] at hmapped hreads hruns
    have hbound := (h.users p).bound dst n i hc
    have hready := (h.users p).ready dst n
    cases hruns with
    | acquire hentry => cases hentry
    | take => simp at hret
    | fault hi hne hfault => exact absurd (hmapped i hi) hfault
    | delivered hend =>
      obtain rfl : (i : Int) = ret := by simpa using hret
      refine ⟨hreads, fun hn => ?_⟩
      -- the buffer has run empty at once, or there were some bytes
      rcases Nat.eq_zero_or_pos i with rfl | hpos
      · exact Or.inr (Or.inr ⟨rfl, hend hn, hready hc (hend hn)⟩)
      · exact Or.inr (Or.inl ⟨by omega, by omega⟩)

end Steps

/-- Pipes are FIFO channels.  In every run of processes with mapped buffers, however
long: the buffer holds at most `pipesize` bytes; the bytes delivered followed by the
bytes buffered are the bytes stored, in the order stored; the bytes that each process
has stored are those of its writes, in order, and the number of bytes delivered to it
is the sum of what its reads have returned; a write that returns has stored the first
bytes of its buffer, as many as it returns unless it gives up with -1; and a read that
returns has delivered as many bytes as it returns, between 1 and `n > 0` bytes, or 0 at
the end of the stream, unless it is killed. -/
theorem pipe_is_fifo {data : Nat → UInt8} {s : State}
    (hrun : Run step Mapped (pipealloc data) s) :
    ahead (2 ^ 32) s.nread s.nwrite ≤ pipesize ∧
      s.delivered.map Prod.snd ++ s.queue = s.stored.map Prod.snd ∧
      (∀ p, bytesOf p s.stored = s.written p ++ (s.call p).progress) ∧
      (∀ p, (bytesOf p s.delivered).length = s.returned p + (s.call p).fetched) ∧
      (∀ p s' src ret, (s.call p).Writes src → step s (.run p) = some s' →
        s'.call p = .idle ret → ∃ i, bytesOf p s'.stored = s.written p ++ taken src i ∧
          (ret = i ∨ ret = -1 ∧ (s'.readopen = false ∨ s'.killed p = true))) ∧
      ∀ p s' n ret, (s.call p).Reads n → step s (.run p) = some s' → s'.call p = .idle ret →
        (bytesOf p s'.delivered).length = s.returned p + ret.toNat ∧
          (0 < n → Outcome s' p n ret) := by
  have h := Inv.reaches hrun
  have hgo : ∀ {p s'}, step s (.run p) = some s' → runStep s p = some s' := by
    intro p s' hstep
    obtain ⟨-, hstep⟩ := Option.ite_none_right_eq_some.mp hstep
    exact hstep
  refine ⟨h.queue.room, h.queue.fifo, fun p => (h.users p).writes, fun p => (h.users p).reads,
    ?_, ?_⟩
  · intro p s' src ret hc hstep hret
    exact h.write_returns hc (hgo hstep) hret
  · intro p s' n ret hc hstep hret
    exact h.read_returns hc (hgo hstep) hret

/-- Process 0 writes three bytes, and the read of two bytes by process 1 returns. -/
theorem pipe_is_fifo_three_bytes :
    ∃ s s', Run step Mapped (pipealloc fun _ => 0) s ∧ (s.call 1).Reads 2 ∧
      step s (.run 1) = some s' ∧ s'.call 1 = .idle 2 ∧ bytesOf 1 s'.delivered = [7, 8] ∧
      s'.queue = [9] ∧ Outcome s' 1 2 2 := by
  have hexec : (exec step Mapped (pipealloc fun _ => 0) ([.write 0 (fun i => [7, 8, 9][i]?) 3] ++
      List.replicate 5 (.run 0) ++ [.read 1 (fun _ => true) 2] ++ List.replicate 4 (.run 1))).map
        (fun s => (step s (.run 1)).map fun s' =>
          ((s.call 1).wants, (s'.call 1).result, bytesOf 1 s'.delivered, s'.queue)) =
          some (some (some 2, some 2, [7, 8], [9])) := by
    decide +kernel
  obtain ⟨s, hrun, hlast⟩ := exec_reaches hexec
  obtain ⟨s', hstep, hobs⟩ := Option.map_eq_some_iff.mp hlast
  simp only [Prod.mk.injEq] at hobs
  obtain ⟨hwants, hresult, hdelivered, hqueue⟩ := hobs
  have hret := Call.eq_idle_of_result hresult
  have hreads := Call.reads_of_wants hwants
  exact ⟨s, s', hrun, hreads, hstep, hret, hdelivered, hqueue,
    ((pipe_is_fifo hrun).2.2.2.2.2 1 s' 2 2 hreads hstep hret).2 (by decide)⟩

end PipeIo
end Xv6
