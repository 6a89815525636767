import Mathlib.Tactic
import Xv6.Pipe.Protocol

/-!
# Who sleeps on a pipe

A reader sleeps while the pipe is empty, a writer while it is full, and whoever
changes that while holding the lock has to wake them.  `pipewrite` does not when it
gives up on a full buffer.

Main results:

- Theorem {lit}`sleepers_blocked`: in every run in which no write gives up after
  storing bytes, nobody sleeps on a pipe that is ready.
- Theorem {lit}`reader_left_asleep`: a killed write leaves a reader asleep.
-/

namespace Xv6
namespace PipeIo

open Lib State Function

/-- A write that finds the buffer full and gives up, because the read end is closed or
its caller is killed, has stored nothing since it took the lock. -/
def GivesUpClean (s : State) : Act → Prop
  | .run p => ∀ src n (i : Nat), s.call p = .writeFor src n i → i < n → s.full →
      s.readopen = false ∨ s.killed p = true → s.fresh = 0
  | _ => True

/-- Nobody sleeps without a reason. -/
structure Blocked (s : State) : Prop where
  readers : ∀ p, s.asleep p = some .nread → s.nread = s.nwrite ∧ s.writeopen = true
  writers : ∀ p, s.asleep p = some .nwrite → s.full ∧ s.readopen = true

/-- The call has left the first loop of `piperead`. -/
def Call.taking : Call → Bool
  | .readFor _ _ _ => true
  | _ => false

/-- The call is in the loops of `pipewrite`. -/
def Call.storing : Call → Bool
  | .writeFor _ _ _ => true
  | _ => false

/-- The invariant.  A writer may have stored bytes, and a reader may be taking them,
before it wakes the others; both still have the lock. -/
structure Drowsy (s : State) : Prop where
  holder : ∀ p, (s.call p).locked = true ↔ s.lock = some p
  fresh : 0 < s.fresh → ∃ q, s.lock = some q ∧ (s.call q).storing = true
  readers : ∀ p, s.asleep p = some .nread →
    (s.nread = s.nwrite ∧ s.writeopen = true) ∨ 0 < s.fresh
  writers : ∀ p, s.asleep p = some .nwrite →
    (s.full ∧ s.readopen = true) ∨ ∃ q, s.lock = some q ∧ (s.call q).taking = true

namespace Drowsy

variable {s s' : State} {p : Nat} {c : Call} {src : Nat → Option UInt8} {dst : Nat → Bool} {n : Int}
  {i : Nat}

/-- Nobody sleeps on a new pipe. -/
theorem init (data : Nat → UInt8) : Drowsy (pipealloc data) where
  holder _ := by simp [pipealloc]
  fresh h := absurd h (Nat.lt_irrefl 0)
  readers _ h := by cases h
  writers _ h := by cases h

/-- With the lock free there is a reason for every sleeper. -/
theorem blocked (h : Drowsy s) (hfree : s.lock = none) : Blocked s where
  readers p hp := (h.readers p hp).resolve_right fun hfresh => by
    obtain ⟨q, hq, -⟩ := h.fresh hfresh
    simp [hfree] at hq
  writers p hp := (h.writers p hp).resolve_right fun ⟨q, hq, _⟩ => by simp [hfree] at hq

/-- Only a writer has stored bytes. -/
theorem fresh_eq_zero (h : Drowsy s) (hlock : s.lock = some p)
    (hp : (s.call p).storing = false) : s.fresh = 0 := by
  by_contra hne
  obtain ⟨q, hq, hstoring⟩ := h.fresh (Nat.pos_of_ne_zero hne)
  cases hlock.symm.trans hq
  simp [hp] at hstoring

/-- While the holder of the lock is not in the second loop of `piperead`, sleeping
writers are blocked. -/
theorem writers_of_holder (h : Drowsy s) (hlock : s.lock = some p)
    (hp : (s.call p).taking = false) {q : Nat} (hq : s.asleep q = some .nwrite) :
    s.full ∧ s.readopen = true := by
  refine (h.writers q hq).resolve_right ?_
  rintro ⟨r, hr, htaking⟩
  cases hlock.symm.trans hr
  simp [hp] at htaking

/-- The holder of the lock, after `p` has moved. -/
theorem holder_setCall (h : Drowsy s) {l : Option Nat} (hself : c.locked = true ↔ l = some p)
    (hothers : ∀ q, q ≠ p → (l = some q ↔ s.lock = some q)) (q : Nat) :
    (update s.call p c q).locked = true ↔ l = some q := by
  obtain rfl | hq := eq_or_ne q p
  · rw [update_self, hself]
  · rw [update_of_ne hq, h.holder, hothers q hq]

/-- Releasing the lock concerns its holder alone. -/
theorem lock_iff_of_release (hlock : s.lock = some p) {q : Nat} (hq : q ≠ p) :
    (none = some q ↔ s.lock = some q) := by
  rw [hlock]
  simp [Ne.symm hq]

/-- `p` leaves the pipe or goes to sleep. -/
theorem of_release (h : Drowsy s) (hlock : s.lock = some p)
    (hcall : s'.call = update s.call p c) (hc : c.locked = false) (hnone : s'.lock = none)
    (hfresh : s'.fresh = 0) (hblocked : Blocked s') : Drowsy s' where
  holder q := by
    rw [hcall, hnone]
    exact h.holder_setCall (by rw [hc]; simp) (fun q hq => lock_iff_of_release hlock hq) q
  fresh hpos := absurd hpos (by omega)
  readers q hq := Or.inl (hblocked.readers q hq)
  writers q hq := Or.inl (hblocked.writers q hq)

/-- A process that is not in the pipe starts a call. -/
theorem start (h : Drowsy s) (hstart : start s p c = some s') (hc : c.locked = false) :
    Drowsy s' := by
  unfold PipeIo.start at hstart
  split at hstart
  next ret hidle =>
    cases hstart
    have hlock : s.lock ≠ some p := by
      rw [Ne, ← h.holder, hidle]
      simp
    -- the holder of the lock is another process
    have hother : ∀ q, s.lock = some q → (s.setCall p c).call q = s.call q := by
      intro q hq
      apply update_of_ne
      rintro rfl
      exact hlock hq
    refine ⟨h.holder_setCall (by rw [hc]; simp [hlock]) fun _ _ => Iff.rfl, ?_, h.readers, ?_⟩
    · intro hpos
      obtain ⟨q, hq, hstoring⟩ := h.fresh hpos
      exact ⟨q, hq, by rw [hother q hq, hstoring]⟩
    · intro q hq
      refine (h.writers q hq).imp_right ?_
      rintro ⟨r, hr, htaking⟩
      exact ⟨r, hr, by rw [hother r hr, htaking]⟩
  next => cases hstart

/-- After `wakeup` nobody sleeps on the channel, and nobody new on the other. -/
theorem asleep_wakeup {ch ch' : Chan} {q : Nat} (hq : (s.wakeup ch).asleep q = some ch') :
    ch' ≠ ch ∧ s.asleep q = some ch' := by
  simp only [State.wakeup] at hq
  split at hq
  · cases hq
  next hne =>
    refine ⟨?_, hq⟩
    rintro rfl
    exact hne hq

/-- With the lock free nothing has been stored that others should know of. -/
theorem fresh_of_free (h : Drowsy s) (hfree : s.lock = none) : ¬0 < s.fresh := by
  intro hpos
  obtain ⟨q, hq, -⟩ := h.fresh hpos
  simp [hfree] at hq

/-- The holder of the lock stays in the pipe and leaves it as it is. -/
theorem of_stay (h : Drowsy s) (hlocked : c.locked = true) (hlock : s'.lock = some p)
    (hwas : s.lock = none ∨ s.lock = some p) (hcall : s'.call = update s.call p c)
    (hfresh : 0 < s'.fresh → c.storing = true)
    (hreaders : ∀ q, s'.asleep q = some .nread →
      (s'.nread = s'.nwrite ∧ s'.writeopen = true) ∨ 0 < s'.fresh)
    (hwriters : ∀ q, s'.asleep q = some .nwrite →
      (s'.full ∧ s'.readopen = true) ∨ c.taking = true) : Drowsy s' where
  holder q := by
    rw [hcall, hlock]
    refine h.holder_setCall (by simp only [hlocked]) (fun q hq => ?_) q
    rcases hwas with hwas | hwas <;> simp [hwas, Ne.symm hq]
  fresh hpos := ⟨p, hlock, by rw [hcall, update_self, hfresh hpos]⟩
  readers := hreaders
  writers q hq := (hwriters q hq).imp_right fun ht => ⟨p, hlock, by rw [hcall, update_self, ht]⟩

/-- The step lemma for a process that goes on with its call. -/
theorem run (h : Drowsy s) (hrule : GivesUpClean s (.run p)) (hrun : runStep s p = some s') :
    Drowsy s' := by
  have hruns := runs_of_runStep hrun
  generalize hc : s.call p = c at hruns
  have hlock : c.locked = true → s.lock = some p := fun hl => (h.holder p).mp (hc ▸ hl)
  have hwriters : c.locked = true → c.taking = false → ∀ q, s.asleep q = some .nwrite →
      s.full ∧ s.readopen = true :=
    fun hl ht q => h.writers_of_holder (hlock hl) (hc ▸ ht)
  have hreaders : c.locked = true → c.storing = false → ∀ q, s.asleep q = some .nread →
      s.nread = s.nwrite ∧ s.writeopen = true := by
    intro hl ht q hq
    have hzero := h.fresh_eq_zero (hlock hl) (hc ▸ ht)
    exact (h.readers q hq).resolve_right (by omega)
  have hwoken : ∀ t ch q, ¬(State.wakeup t ch).asleep q = some ch :=
    fun t ch q hq => (asleep_wakeup hq).1 rfl
  cases hruns with
  | acquire hentry hfree =>
    have hblocked := h.blocked hfree
    have hlocked : ∀ {c c'}, Call.entry c = some c' → c'.locked = true := by
      intro c c' hentry
      cases c <;> cases hentry <;> rfl
    exact h.of_stay (hlocked hentry) rfl (Or.inl hfree) rfl
      (fun hpos => absurd hpos (h.fresh_of_free hfree))
      (fun q hq => Or.inl (hblocked.readers q hq)) fun q hq => Or.inl (hblocked.writers q hq)
  | refuse hi hfull hgive =>
    -- no wakeup here
    have hfresh := hrule _ _ _ hc hi hfull hgive
    refine h.of_release (c := .idle (-1)) (hlock rfl) rfl rfl rfl rfl
      ⟨fun q hq => ?_, hwriters rfl rfl⟩
    exact (h.readers q hq).resolve_right (by omega)
  | @writeSleep src n i hfull hstay =>
    rw [not_or] at hstay
    have hopen : s.readopen = true := Bool.eq_true_of_not_eq_false hstay.1
    refine h.of_release (c := .writeSleep src n i) (hlock rfl) rfl rfl rfl rfl
      ⟨fun q hq => ?_, fun _ _ => ⟨hfull, hopen⟩⟩
    obtain rfl | hqp := eq_or_ne q p
    all_goals simp_all [State.sleep]
  | @written _ _ i =>
    exact h.of_release (c := .idle i) (hlock rfl) rfl rfl rfl rfl
      ⟨fun q hq => absurd hq (hwoken _ _ q), fun q hq => hwriters rfl rfl q (asleep_wakeup hq).2⟩
  | put hi hroom =>
    exact h.of_stay rfl (hlock rfl) (Or.inr (hlock rfl)) rfl (fun _ => rfl)
      (fun _ _ => Or.inr (Nat.succ_pos _)) fun q hq => absurd (hwriters rfl rfl q hq).1 hroom
  | killed =>
    exact h.of_release (c := .idle (-1)) (hlock rfl) rfl rfl rfl rfl
      ⟨hreaders rfl rfl, hwriters rfl rfl⟩
  | @readSleep dst n hempty =>
    refine h.of_release (c := .readSleep dst n) (hlock rfl) rfl rfl rfl rfl
      ⟨fun _ _ => hempty, fun q hq => ?_⟩
    obtain rfl | hqp := eq_or_ne q p
    · simp [State.sleep] at hq
    · exact hwriters rfl rfl q (by simpa [State.sleep, hqp] using hq)
  | fetch =>
    have hzero := h.fresh_eq_zero (hlock rfl) (hc ▸ rfl)
    exact h.of_stay rfl (hlock rfl) (Or.inr (hlock rfl)) rfl (fun hpos => by simp [hzero] at hpos)
      (fun q hq => Or.inl (hreaders rfl rfl q hq)) fun _ _ => Or.inr rfl
  | @delivered _ _ i =>
    exact h.of_release (c := .idle i) (hlock rfl) rfl rfl rfl rfl
      ⟨fun q hq => hreaders rfl rfl q (asleep_wakeup hq).2, fun q hq => absurd hq (hwoken _ _ q)⟩
  | take hi hne =>
    have hzero := h.fresh_eq_zero (hlock rfl) (hc ▸ rfl)
    exact h.of_stay rfl (hlock rfl) (Or.inr (hlock rfl)) rfl (fun hpos => by simp [hzero] at hpos)
      (fun q hq => absurd (hreaders rfl rfl q hq).1 hne) fun _ _ => Or.inr rfl
  | @fault _ _ i hi hne =>
    exact h.of_release (c := .idle i) (hlock rfl) rfl rfl rfl rfl
      ⟨fun q hq => absurd (hreaders rfl rfl q (asleep_wakeup hq).2).1 hne,
        fun q hq => absurd hq (hwoken _ _ q)⟩
  | @close writable freed hfree =>
    have hblocked := h.blocked hfree
    have hholder := fun q => h.holder_setCall (p := p) (c := .idle 0) (l := none) (by simp)
      (fun q _ => by simp [hfree]) q
    cases writable with
    | true =>
      exact ⟨hfree ▸ hholder, fun hpos => absurd hpos (h.fresh_of_free hfree),
        fun q hq => absurd hq (hwoken _ _ q),
        fun q hq => Or.inl (hblocked.writers q (asleep_wakeup hq).2)⟩
    | false =>
      exact ⟨hfree ▸ hholder, fun hpos => absurd hpos (h.fresh_of_free hfree),
        fun q hq => Or.inl (hblocked.readers q (asleep_wakeup hq).2),
        fun q hq => absurd hq (hwoken _ _ q)⟩

/-- A killed process is woken. -/
theorem kill (h : Drowsy s) (p : Nat) : Drowsy { s with
    killed := update s.killed p true, asleep := update s.asleep p none } := by
  have hasleep : ∀ q ch, update s.asleep p none q = some ch → s.asleep q = some ch := by
    intro q ch hq
    obtain rfl | hqp := eq_or_ne q p
    · simp at hq
    · rwa [update_of_ne hqp] at hq
  exact ⟨h.holder, h.fresh, fun q hq => h.readers q (hasleep q _ hq),
    fun q hq => h.writers q (hasleep q _ hq)⟩

/-- The step lemma. -/
theorem step {a : Act} (h : Drowsy s) (hrule : GivesUpClean s a)
    (hstep : PipeIo.step s a = some s') : Drowsy s' := by
  cases a with
  | write p src n => exact h.start hstep rfl
  | read p dst n => exact h.start hstep rfl
  | close p writable => exact h.start hstep rfl
  | kill p =>
    cases hstep
    exact h.kill p
  | run p =>
    obtain ⟨-, hstep⟩ := Option.ite_none_right_eq_some.mp hstep
    exact h.run hrule hstep

end Drowsy

/-- No process sleeps on a pipe that is ready for it: in every run in which no write
gives up on a full buffer after storing bytes, whenever the lock is free the readers
that sleep find the pipe empty with its write end open, and the writers that sleep find
it full with its read end open. -/
theorem sleepers_blocked {data : Nat → UInt8} {s : State}
    (hrun : Run step GivesUpClean (pipealloc data) s) (hfree : s.lock = none) : Blocked s :=
  (hrun.invariant (Drowsy.init data) fun _ _ _ h hrule hstep => h.step hrule hstep).blocked hfree

/-- A reader that finds the pipe empty goes to sleep. -/
theorem sleepers_blocked_reader : ∃ s, Run step GivesUpClean (pipealloc fun _ => 0) s ∧
    s.asleep 0 = some .nread ∧ Blocked s := by
  have hread := Run.refl.snoc (show GivesUpClean (pipealloc fun _ => 0)
    (.read 0 (fun _ => true) 1) from trivial) (Eq.refl (step _ _))
  have hlock := hread.snoc (show GivesUpClean _ (.run 0) from fun _ _ _ hc => by cases hc)
    (Eq.refl (step _ _))
  have hrun := hlock.snoc (show GivesUpClean _ (.run 0) from fun _ _ _ hc => by cases hc)
    (Eq.refl (step _ _))
  exact ⟨_, hrun, rfl, sleepers_blocked hrun rfl⟩

/-- Process 0 sleeps in `piperead` on an empty pipe.  Process 1 is killed in
`pipewrite`, fills the buffer and gives up without waking process 0. -/
theorem reader_left_asleep : ∃ s, Run step (fun _ _ => True) (pipealloc fun _ => 0) s ∧
    s.lock = none ∧ s.asleep 0 = some .nread ∧ s.nread ≠ s.nwrite := by
  have hexec : (exec step (fun _ _ => True) (pipealloc fun _ => 0)
      ([.read 0 (fun _ => true) 1, .run 0, .run 0, .write 1 (fun _ => some 0) 513, .kill 1] ++
        List.replicate 514 (.run 1))).map
      (fun s => (s.lock, s.asleep 0, s.nread, s.nwrite)) = some (none, some .nread, 0, 512) := by
    decide +kernel
  obtain ⟨s, hrun, hs⟩ := exec_reaches hexec
  simp only [Prod.mk.injEq] at hs
  obtain ⟨hlock, hasleep, hread, hwrite⟩ := hs
  exact ⟨s, hrun, hlock, hasleep, by omega⟩

end PipeIo
end Xv6
