import Mathlib.Tactic
import Xv6.Sched.Exclusion

/-!
# What a step does

One inversion lemma says what a step of a CPU can change: the slots of the process table, its
own place in the code and the histories.  The invariants about sleeping processes and about
families use it and do not look at the code again.

Main definitions:

- {lit}`Change`: how a step can change a slot, and from which place.
- {lit}`Leads`: where the code of a process can go on.

Main results:

- Theorem {lit}`effect_move`: the effect of one step.
-/

namespace Xv6
namespace Sched

open Lib Machine Function

/-! ## Slots -/

/-- Slot `i` after a step of CPU `c`. -/
inductive Change (m : Machine) (c i : Nat) : Slot → Prop where
  | same : Change m c i (m.slot i)
  | wakes (hstate : (m.slot i).state = .sleeping) :
      Change m c i { m.slot i with state := .runnable }
  | kills : Change m c i (m.slot i).kill
  | runs (hpc : (m.cpu c).pc = .test i) (hstate : (m.slot i).state = .runnable) :
      Change m c i { m.slot i with state := .running }
  | loads (hpc : (m.cpu c).pc = .load i) : Change m c i { m.slot i with context := none }
  | yields (b : Pc) (hpc : (m.cpu c).pc = .yieldSet i b) :
      Change m c i { m.slot i with state := .runnable }
  | sleeps (ch : Chan) (k : Nat) (hpc : (m.cpu c).pc = .sleepSet i ch k) :
      Change m c i ((m.slot i).sleep ch)
  | waits (addr : Nat) (hpc : (m.cpu c).pc = .waitSleep i addr) :
      Change m c i ((m.slot i).sleep (.proc i))
  | rises (hpc : (∃ ch k, (m.cpu c).pc = .sleepBack i ch k) ∨
        ∃ addr, (m.cpu c).pc = .waitBack i addr) :
      Change m c i { m.slot i with chan := none }
  | saves (b : Pc) (hpc : (m.cpu c).pc = .sched b) (hproc : (m.cpu c).proc = some i) :
      Change m c i { m.slot i with context := some b }
  | names (p : Nat) (pid : Int) (hpc : (m.cpu c).pc = .forkTest p i)
      (hstate : (m.slot i).state = .unused) : Change m c i { m.slot i with pid := pid }
  | setup (p : Nat) (hpc : (m.cpu c).pc = .forkAlloc p i) :
      Change m c i { m.slot i with context := some .forkret }
  | fails (p : Nat) (hpc : (m.cpu c).pc = .forkAlloc p i ∨ (m.cpu c).pc = .forkCopy p i) :
      Change m c i (m.slot i).freeproc
  | born (p : Nat) (hpc : (m.cpu c).pc = .forkCopy p i) :
      Change m c i { m.slot i with parent := some p, state := .runnable, uid := m.born }
  | adopts (p : Nat) (status : Int) (q : Nat) (hpc : (m.cpu c).pc = .reparentSet p status q i) :
      Change m c i { m.slot i with parent := some m.initproc }
  | dies (status : Int) (q : Nat) (hpc : (m.cpu c).pc = .exitZombie i status q) :
      Change m c i { m.slot i with xstate := status, state := .zombie }
  | reaped (p addr : Nat) (hpc : (m.cpu c).pc = .waitTest p addr i)
      (hstate : (m.slot i).state = .zombie) : Change m c i (m.slot i).freeproc

/-- The slots after a step. -/
def Changes (m : Machine) (c : Nat) (m' : Machine) : Prop :=
  ∀ i, Change m c i (m'.slot i)

/-! ## Places -/

namespace Pc

/-- The place to which interrupts, `wakeup`, `yield` and `sched` return in the end. -/
def inner : Pc → Pc
  | .intr b | .wakeup _ _ b | .wakeupSet _ _ b | .yield b | .yieldSet _ b | .yieldBack _ b
  | .sched b => b.inner
  | pc => pc

/-- User code, and system calls of which nothing has to be remembered. -/
def plain : Pc → Bool
  | .user | .kill _ _ | .killSet _ _ | .fork _ _ | .waitLock _ _ | .waitRelease _
  | .waitBack _ _ => true
  | _ => false

/-- Places from which the code goes on to such a place. -/
def serves : Pc → Bool
  | .user | .kill _ _ | .killSet _ _ | .fork _ _ | .forkTest _ _ | .forkAlloc _ _ | .forkCopy _ _
  | .forkret | .waitScan _ _ _ _ | .waitTest _ _ _ | .waitRelease _ | .waitSleep _ _ => true
  | _ => false

end Pc

/-- Where the code of a process can go on, and what it has found out on the way. -/
inductive Leads (m m' : Machine) (a : Move) : Pc → Pc → Prop where
  /-- This is not the code of a process. -/
  | scheduler {old pc : Pc} (hold : ∀ p, ¬old.Of p) : Leads m m' a old pc
  | inner {old pc : Pc} (hinner : pc.inner = old.inner) : Leads m m' a old pc
  | switches {b : Pc} : Leads m m' a (.sched b) .swtch
  | calls {old pc : Pc} (hold : old.serves = true) (hpc : pc.inner.plain = true) :
      Leads m m' a old pc
  | sleep {x k : Nat} (ha : a = .sleep x k) : Leads m m' a .user (.sleep (.addr x) k)
  | sleepRelease {p : Nat} {ch : Chan} {k : Nat} :
      Leads m m' a (.sleep ch k) (.sleepRelease p ch k)
  | sleepSet {p : Nat} {ch : Chan} {k : Nat} :
      Leads m m' a (.sleepRelease p ch k) (.sleepSet p ch k)
  | sleepBack {p : Nat} {ch : Chan} {k : Nat} :
      Leads m m' a (.sleepSet p ch k) (.sched (.sleepBack p ch k))
  | sleepAcquire {p : Nat} {ch : Chan} {k : Nat} :
      Leads m m' a (.sleepBack p ch k) (.sleepAcquire ch k)
  | slept {ch : Chan} {k : Nat} (hfree : m.lock (.other k) = none) :
      Leads m m' a (.sleepAcquire ch k) .user
  | forkTest {p i : Nat} (hi : i < nproc) : Leads m m' a (.fork p i) (.forkTest p i)
  | forkAlloc {p i : Nat} : Leads m m' a (.forkTest p i) (.forkAlloc p i)
  | forkCopy {p i : Nat} : Leads m m' a (.forkAlloc p i) (.forkCopy p i)
  | exit {p : Nat} {status : Int} (hexits : m'.exits ≠ m.exits) :
      Leads m m' a .user (.exitInit p status)
  | exitWake {p : Nat} {status : Int} : Leads m m' a (.exitInit p status) (.exitWake p status)
  | exitSelf {p : Nat} {status : Int} : Leads m m' a (.exitWake p status) (.exitSelf p status)
  | exitParent {p : Nat} {status : Int} : Leads m m' a (.exitSelf p status) (.exitParent p status)
  | exitLockParent {p : Nat} {status : Int} {q : Nat} (hparent : (m.slot p).parent = some q) :
      Leads m m' a (.exitParent p status) (.exitLockParent p status q)
  | exitLockSelf {p : Nat} {status : Int} {q : Nat} :
      Leads m m' a (.exitLockParent p status q) (.exitLockSelf p status q)
  | reparent {p : Nat} {status : Int} {q : Nat} :
      Leads m m' a (.exitLockSelf p status q) (.reparent p status q 0)
  | reparentLock {p : Nat} {status : Int} {q i : Nat} (hchild : (m.slot i).parent = some p) :
      Leads m m' a (.reparent p status q i) (.reparentLock p status q i)
  | reparentNext {p : Nat} {status : Int} {q i : Nat} (hchild : (m.slot i).parent ≠ some p) :
      Leads m m' a (.reparent p status q i) (.reparent p status q (i + 1))
  | exitZombie {p : Nat} {status : Int} {q i : Nat} (hi : nproc ≤ i) :
      Leads m m' a (.reparent p status q i) (.exitZombie p status q)
  | reparentSet {p : Nat} {status : Int} {q i : Nat} :
      Leads m m' a (.reparentLock p status q i) (.reparentSet p status q i)
  | adopted {p : Nat} {status : Int} {q i : Nat} :
      Leads m m' a (.reparentSet p status q i) (.reparent p status q (i + 1))
  | exitRelease {p : Nat} {status : Int} {q : Nat} :
      Leads m m' a (.exitZombie p status q) (.exitRelease p q)
  | zombie {p q : Nat} : Leads m m' a (.exitRelease p q) (.sched .zombie)
  | waitScan {old : Pc} {p addr : Nat} (hold : old = .waitLock p addr ∨ old = .waitBack p addr) :
      Leads m m' a old (.waitScan p addr 0 false)
  | waitChild {p addr i : Nat} {havekids : Bool} (hchild : (m.slot i).parent = some p) :
      Leads m m' a (.waitScan p addr i havekids) (.waitChild p addr i)
  | waitNext {p addr i : Nat} {havekids : Bool} (hchild : (m.slot i).parent ≠ some p) :
      Leads m m' a (.waitScan p addr i havekids) (.waitScan p addr (i + 1) havekids)
  | waitSleep {p addr i : Nat} {havekids : Bool} (hi : nproc ≤ i) :
      Leads m m' a (.waitScan p addr i havekids) (.waitSleep p addr)
  | waitTest {p addr i : Nat} : Leads m m' a (.waitChild p addr i) (.waitTest p addr i)
  | tested {p addr i : Nat} (hstate : (m.slot i).state ≠ .zombie) :
      Leads m m' a (.waitTest p addr i) (.waitScan p addr (i + 1) true)

/-! ## The effect of a step -/

/-- The steps that the histories record. -/
inductive Event (m : Machine) (c : Nat) (m' : Machine) : Prop where
  | exit (p : Nat) (status : Int) (hpc : (m.cpu c).pc = .user) (hproc : (m.cpu c).proc = some p)
      (hinit : p ≠ m.initproc) (hpc' : (m'.cpu c).pc = .exitInit p status)
      (hslot : m'.slot = m.slot) (hexits : m'.exits = m.exits ++ [((m.slot p).uid, status)])
      (hreaps : m'.reaps = m.reaps) (hborn : m'.born = m.born)
  | fork (p np : Nat) (hpc : (m.cpu c).pc = .forkCopy p np) (hexits : m'.exits = m.exits)
      (hreaps : m'.reaps = m.reaps) (hborn : m'.born = m.born + 1)
  | reap (p addr i : Nat) (hpc : (m.cpu c).pc = .waitTest p addr i)
      (hzombie : (m.slot i).state = .zombie) (hslot : m'.slot i = (m.slot i).freeproc)
      (hexits : m'.exits = m.exits)
      (hreaps : m'.reaps = m.reaps ++ [⟨p, (m.slot i).parent, (m.slot i).uid, addr,
        if addr ≠ 0 then some (m.slot i).xstate else none⟩])
      (hborn : m'.born = m.born)

/-- The histories are the same. -/
def SamePast (m m' : Machine) : Prop :=
  m'.exits = m.exits ∧ m'.reaps = m.reaps ∧ m'.born = m.born

/-- The `proc` of CPU `c` is changed in `scheduler` only. -/
def Procs (m : Machine) (c : Nat) (x : Cpu) : Prop :=
  x.proc = (m.cpu c).proc ∨ (x.proc = none ∧ ∃ i, (m.cpu c).pc = .back i) ∨ ∃ i, x.pc = .dispatch i

/-- What the move `a` of CPU `c` does.  It changes neither the other CPUs nor `initproc`. -/
structure Effect (m : Machine) (c : Nat) (a : Move) (m' : Machine) : Prop where
  slots : Changes m c m'
  cpu : ∀ d, d ≠ c → m'.cpu d = m.cpu d
  init : m'.initproc = m.initproc
  proc : Procs m c (m'.cpu c)
  past : SamePast m m' ∨ Event m c m'
  next : (m'.cpu c).pc = (m.cpu c).pc ∨ Leads m m' a (m.cpu c).pc (m'.cpu c).pc

section Effect

variable {m m' m₁ : Machine} {c i : Nat} {l : Lock} {old pc : Pc} {a : Move} {x : Slot}

/-- A step that leaves the slots alone. -/
theorem changes_refl : Changes m c m := fun _ => .same

/-- One slot has been changed. -/
theorem changes_set (hx : Change m c i x) : Changes m c (m.setSlot i x) := by
  intro j
  rw [setSlot_slot]
  obtain rfl | hj := eq_or_ne j i
  · rw [update_self]
    exact hx
  · rw [update_of_ne hj]
    exact .same

/-- `wakeup` may change any slot. -/
theorem change_wakeup (ch : Chan) : Change m c i ((m.slot i).wakeup ch) := by
  unfold Slot.wakeup
  split
  next h => exact .wakes h.1
  next => exact .same

/-- `wakeup1` may change any slot. -/
theorem change_wakeup1 (j : Nat) : Change m c i ((m.slot i).wakeup1 j) := by
  unfold Slot.wakeup1
  split
  next h => exact .wakes h.2
  next => exact .same

/-- A step that sets CPU `c`, and nothing else besides the slots. -/
theorem Effect.set {y : Cpu} (hpc : (m.cpu c).pc = old) (hslots : Changes m c m')
    (hcpu : m'.cpu = update m.cpu c y) (hinit : m'.initproc = m.initproc) (hpast : SamePast m m')
    (hproc : Procs m c y) (hnext : Leads m m' a old y.pc) : Effect m c a m' where
  slots := hslots
  cpu d hd := by rw [hcpu, update_of_ne hd]
  init := hinit
  proc := by rwa [hcpu, update_self]
  past := Or.inl hpast
  next := by
    rw [hcpu, update_self, hpc]
    exact Or.inr hnext

/-- A panic. -/
theorem Effect.panic (msg : String) : Effect m c a (m.panic msg) :=
  ⟨changes_refl, fun _ _ => rfl, rfl, Or.inl rfl, Or.inl ⟨rfl, rfl, rfl⟩, Or.inl rfl⟩

/-- The code goes on. -/
theorem Effect.goto (hpc : (m.cpu c).pc = old) (hnext : Leads m (m.goto c pc) a old pc) :
    Effect m c a (m.goto c pc) :=
  .set hpc changes_refl rfl rfl ⟨rfl, rfl, rfl⟩ (Or.inl rfl) hnext

/-- ... after it has changed a slot. -/
theorem Effect.setGoto (hpc : (m.cpu c).pc = old) (hx : Change m c i x)
    (hnext : Leads m ((m.setSlot i x).goto c pc) a old pc) :
    Effect m c a ((m.setSlot i x).goto c pc) :=
  .set hpc (changes_set hx) rfl rfl ⟨rfl, rfl, rfl⟩ (Or.inl rfl) hnext

/-- `acquire`, with the lock free. -/
theorem effect_acquire (hpc : (m.cpu c).pc = old) (hstep : m.acquire c l pc = some m')
    (hnext : m.lock l = none → Leads m m' a old pc) : Effect m c a m' := by
  rcases acquire_cases hstep with ⟨hfree, rfl⟩ | ⟨-, rfl⟩
  · exact .set hpc changes_refl rfl rfl ⟨rfl, rfl, rfl⟩ (Or.inl rfl) (hnext hfree)
  · exact .panic _

/-- `acquire(&myproc()->lock)`. -/
theorem effect_acquireSelf {f : Nat → Pc} (hpc : (m.cpu c).pc = old)
    (hstep : m.acquireSelf c f = some m') (hnext : ∀ p, Leads m m' a old (f p)) :
    Effect m c a m' := by
  unfold Machine.acquireSelf at hstep
  split at hstep
  · cases hstep
  · exact effect_acquire hpc hstep fun _ => hnext _

/-- `release` of a lock, after changes to slots and histories in `m₁`. -/
theorem Effect.of_release (hpc : (m.cpu c).pc = old) (hstep : m₁.release c l pc = some m')
    (hcpu : m₁.cpu = m.cpu) (hinit : m₁.initproc = m.initproc) (hslots : Changes m c m₁)
    (hpast : ∀ m', SamePast m₁ m' → m'.slot = m₁.slot → SamePast m m' ∨ Event m c m')
    (hnext : Leads m m' a old pc) : Effect m c a m' := by
  unfold Machine.release at hstep
  split at hstep <;> cases hstep
  · refine ⟨hslots, fun d hd => ?_, hinit, Or.inl ?_, hpast _ ⟨rfl, rfl, rfl⟩ rfl, Or.inr ?_⟩
    · simp [hd, hcpu]
    · simp [hcpu]
    · simpa [hpc] using hnext
  · refine ⟨hslots, fun d _ => ?_, hinit, ?_, hpast _ ⟨rfl, rfl, rfl⟩ rfl, Or.inl ?_⟩
    all_goals rw [show (m₁.panic "release").cpu = m.cpu from hcpu]
    exact Or.inl rfl

/-- `release`. -/
theorem effect_release (hpc : (m.cpu c).pc = old) (hstep : m.release c l pc = some m')
    (hnext : Leads m m' a old pc) : Effect m c a m' :=
  .of_release hpc hstep rfl rfl changes_refl (fun _ hpast _ => Or.inl hpast) hnext

/-- A change of a slot before `release`. -/
theorem effect_setRelease (hpc : (m.cpu c).pc = old) (hstep : m.setRelease c i x pc = some m')
    (hx : Change m c i x) (hnext : Leads m m' a old pc) : Effect m c a m' :=
  .of_release hpc hstep rfl rfl (changes_set hx) (fun _ hpast _ => Or.inl hpast) hnext

/-- `sched` panics, or it saves the context of its process. -/
theorem sched_cases {b : Pc} (hstep : Sched.sched m c b = some m') :
    (∃ msg, m' = m.panic msg) ∨ ∃ p, (m.cpu c).proc = some p ∧
      m' = (m.setSlot p { m.slot p with context := some b }).goto c .swtch := by
  unfold Sched.sched at hstep
  split at hstep
  next => cases hstep
  next p hproc =>
    split at hstep
    · exact Or.inl ⟨_, (Option.some.inj hstep).symm⟩
    split at hstep
    · exact Or.inl ⟨_, (Option.some.inj hstep).symm⟩
    split at hstep <;> cases hstep
    · exact Or.inl ⟨_, rfl⟩
    · exact Or.inr ⟨p, hproc, rfl⟩

/-- The slots after such a change. -/
theorem slot_of_setRelease (hstep : m.setRelease c i x pc = some m') :
    m'.slot = update m.slot i x := by
  unfold Machine.setRelease Machine.release at hstep
  split at hstep <;> cases hstep <;> rfl

/-- `exit` under its two locks. -/
theorem effect_exitZombie {p q : Nat} {status : Int} (hpc : (m.cpu c).pc = .exitZombie p status q)
    (hstep : Sched.exitZombie m c p status q = some m') : Effect m c a m' := by
  unfold Sched.exitZombie at hstep
  split at hstep <;> cases hstep
  · exact .panic _
  · refine .set hpc (fun i => ?_) rfl rfl ⟨rfl, rfl, rfl⟩ (Or.inl rfl) .exitRelease
    obtain rfl | hip := eq_or_ne i p
    · obtain rfl | hiq := eq_or_ne i q
      · have hwoken := Change.dies (m := m) status i hpc
        unfold Slot.wakeup1 at *
        split <;> simpa using hwoken
      · simpa [hiq] using Change.dies (m := m) status q hpc
    · obtain rfl | hiq := eq_or_ne i q
      · simpa [hip] using change_wakeup1 (m := m) (c := c) (i := i) i
      · simpa [hip, hiq] using Change.same (m := m) (c := c) (i := i)

/-- The step of the code of a CPU. -/
theorem effect_run (hstep : Sched.run m c = some m') : Effect m c a m' := by
  unfold Sched.run at hstep
  cases hpc : (m.cpu c).pc <;> simp only [hpc] at hstep
  case scan =>
    split at hstep
    · exact effect_acquire hpc hstep fun _ => .scheduler fun _ => id
    · cases hstep
      exact .goto hpc (.scheduler fun _ => id)
  case test i =>
    split at hstep
    next hstate =>
      cases hstep
      exact .set hpc (changes_set (.runs hpc hstate)) rfl rfl ⟨rfl, rfl, rfl⟩
        (Or.inr (Or.inr ⟨i, rfl⟩)) (.scheduler fun _ => id)
    next =>
      cases hstep
      exact .goto hpc (.scheduler fun _ => id)
  case dispatch =>
    cases hstep
    exact .set hpc changes_refl rfl rfl ⟨rfl, rfl, rfl⟩ (Or.inl rfl) (.scheduler fun _ => id)
  case load i =>
    obtain ⟨k, -, rfl⟩ := Option.map_eq_some_iff.mp hstep
    exact .setGoto hpc (.loads hpc) (.scheduler fun _ => id)
  case back i =>
    cases hstep
    exact .set hpc changes_refl rfl rfl ⟨rfl, rfl, rfl⟩ (Or.inr (Or.inl ⟨rfl, i, hpc⟩))
      (.scheduler fun _ => id)
  case drop => exact effect_release hpc hstep (.scheduler fun _ => id)
  case wakeup =>
    split at hstep
    · exact effect_acquire hpc hstep fun _ => .inner rfl
    · cases hstep
      exact .goto hpc (.inner rfl)
  case wakeupSet ch i b => exact effect_setRelease hpc hstep (change_wakeup ch) (.inner rfl)
  case yield => exact effect_acquireSelf hpc hstep fun _ => .inner rfl
  case yieldSet p b =>
    cases hstep
    exact .setGoto hpc (.yields b hpc) (.inner rfl)
  case yieldBack => exact effect_release hpc hstep (.inner rfl)
  case sleep => exact effect_acquireSelf hpc hstep fun _ => .sleepRelease
  case sleepRelease => exact effect_release hpc hstep .sleepSet
  case sleepSet p ch k =>
    cases hstep
    exact .setGoto hpc (.sleeps ch k hpc) .sleepBack
  case sleepBack p ch k =>
    exact effect_setRelease hpc hstep (.rises (Or.inl ⟨ch, k, hpc⟩)) .sleepAcquire
  case sleepAcquire => exact effect_acquire hpc hstep .slept
  case sched b =>
    rcases sched_cases hstep with ⟨msg, rfl⟩ | ⟨p, hproc, rfl⟩
    · exact .panic msg
    · exact .setGoto hpc (.saves b hpc hproc) .switches
  case swtch =>
    obtain ⟨k, -, rfl⟩ := Option.map_eq_some_iff.mp hstep
    exact .set hpc changes_refl rfl rfl ⟨rfl, rfl, rfl⟩ (Or.inl rfl) (.scheduler fun _ => id)
  case kill =>
    split at hstep
    · exact effect_acquire hpc hstep fun _ => .calls rfl rfl
    · cases hstep
      exact .goto hpc (.calls rfl rfl)
  case killSet =>
    split at hstep
    · exact effect_setRelease hpc hstep .kills (.calls rfl rfl)
    · exact effect_release hpc hstep (.calls rfl rfl)
  case fork =>
    split at hstep
    next hi => exact effect_acquire hpc hstep fun _ => .forkTest hi
    next =>
      cases hstep
      exact .goto hpc (.calls rfl rfl)
  case forkTest p i =>
    split at hstep
    next hunused =>
      cases hstep
      exact .set hpc (changes_set (.names p _ hpc hunused)) rfl rfl ⟨rfl, rfl, rfl⟩ (Or.inl rfl)
        .forkAlloc
    next => exact effect_release hpc hstep (.calls rfl rfl)
  case forkret =>
    split at hstep
    · cases hstep
    · exact effect_release hpc hstep (.calls rfl rfl)
  case exitInit => exact effect_acquire hpc hstep fun _ => .exitWake
  case exitWake => exact effect_setRelease hpc hstep (change_wakeup1 _) .exitSelf
  case exitSelf => exact effect_acquire hpc hstep fun _ => .exitParent
  case exitParent =>
    split at hstep
    next => cases hstep
    next hparent => exact effect_release hpc hstep (.exitLockParent hparent)
  case exitLockParent => exact effect_acquire hpc hstep fun _ => .exitLockSelf
  case exitLockSelf => exact effect_acquire hpc hstep fun _ => .reparent
  case reparent =>
    split at hstep
    · split at hstep <;> cases hstep
      next hchild => exact .goto hpc (.reparentLock hchild)
      next hchild => exact .goto hpc (.reparentNext hchild)
    next hi =>
      cases hstep
      exact .goto hpc (.exitZombie (Nat.le_of_not_lt hi))
  case reparentLock => exact effect_acquire hpc hstep fun _ => .reparentSet
  case reparentSet p status q i =>
    exact effect_setRelease hpc hstep (.adopts p status q hpc) .adopted
  case exitZombie => exact effect_exitZombie hpc hstep
  case exitRelease => exact effect_release hpc hstep .zombie
  case zombie =>
    cases hstep
    exact .panic _
  case waitLock => exact effect_acquire hpc hstep fun _ => .waitScan (Or.inl rfl)
  case waitScan =>
    split at hstep
    · split at hstep <;> cases hstep
      next hchild => exact .goto hpc (.waitChild hchild)
      next hchild => exact .goto hpc (.waitNext hchild)
    next hi =>
      split at hstep
      · exact effect_release hpc hstep (.calls rfl rfl)
      · cases hstep
        exact .goto hpc (.waitSleep (Nat.le_of_not_lt hi))
  case waitChild => exact effect_acquire hpc hstep fun _ => .waitTest
  case waitRelease => exact effect_release hpc hstep (.calls rfl rfl)
  case waitSleep p addr =>
    cases hstep
    exact .setGoto hpc (.waits addr hpc) (.calls rfl rfl)
  case waitBack p addr =>
    cases hstep
    exact .setGoto hpc (.rises (Or.inr ⟨addr, hpc⟩)) (.waitScan (Or.inr rfl))
  all_goals cases hstep

/-- `allocproc` in the slot it has found. -/
theorem effect_alloc {p np : Nat} {outcome : Alloc} (hpc : (m.cpu c).pc = .forkAlloc p np)
    (hstep : Sched.forkAlloc m c p np outcome = some m') : Effect m c a m' := by
  cases outcome with
  | noTrapframe => exact effect_release hpc hstep (.calls rfl rfl)
  | noPagetable => exact effect_setRelease hpc hstep (.fails p (Or.inl hpc)) (.calls rfl rfl)
  | done =>
    cases hstep
    exact .setGoto hpc (.setup p hpc) .forkCopy

/-- `fork` after `allocproc`. -/
theorem effect_copy {p np : Nat} {ok : Bool} (hpc : (m.cpu c).pc = .forkCopy p np)
    (hstep : Sched.forkCopy m c p np ok = some m') : Effect m c a m' := by
  unfold Sched.forkCopy at hstep
  split at hstep
  · exact .of_release hpc hstep rfl rfl (changes_set (.born p hpc))
      (fun _ hpast _ => Or.inr (.fork p np hpc hpast.1 hpast.2.1 hpast.2.2)) (.calls rfl rfl)
  · exact effect_setRelease hpc hstep (.fails p (Or.inr hpc)) (.calls rfl rfl)

/-- `wait` with the lock of a child. -/
theorem effect_wait {p addr : Nat} {ok : Bool} (hpc : (m.cpu c).pc = .waitTest p addr i)
    (hstep : Sched.waitTest m c p addr i ok = some m') : Effect m c a m' := by
  unfold Sched.waitTest at hstep
  dsimp only at hstep
  split at hstep
  next hzombie =>
    split at hstep
    · exact effect_release hpc hstep (.calls rfl rfl)
    · refine .of_release hpc hstep rfl rfl (changes_set (.reaped p addr hpc hzombie))
        (fun m' hpast hslot => Or.inr ?_) (.calls rfl rfl)
      exact .reap p addr i hpc hzombie (by rw [hslot]; exact update_self ..) hpast.1 hpast.2.1
        hpast.2.2
  next hstate => exact effect_release hpc hstep (.tested hstate)

/-- The effect of a move. -/
theorem effect_move (hstep : Sched.move m c a = some m') : Effect m c a m' := by
  cases a with
  | run => exact effect_run hstep
  | alloc outcome =>
    simp only [Sched.move] at hstep
    split at hstep
    next p np hpc => exact effect_alloc hpc hstep
    next => cases hstep
  | copy ok =>
    simp only [Sched.move] at hstep
    split at hstep
    next hpc => exact effect_copy hpc hstep
    next hpc => exact effect_wait hpc hstep
    next => cases hstep
  | acquire k =>
    obtain ⟨-, hstep⟩ := Option.ite_none_right_eq_some.mp hstep
    exact effect_acquire rfl hstep fun _ => .inner rfl
  | release k =>
    obtain ⟨-, hstep⟩ := Option.ite_none_right_eq_some.mp hstep
    exact effect_release rfl hstep (.inner rfl)
  | wakeup ch | intr | timer =>
    simp only [Sched.move] at hstep
    split at hstep <;> cases hstep
    exact .goto rfl (.inner rfl)
  | sleep x k =>
    simp only [Sched.move] at hstep
    split at hstep
    next hpc =>
      cases hstep
      exact .goto hpc.1 (.sleep rfl)
    next => cases hstep
  | iret =>
    simp only [Sched.move] at hstep
    split at hstep
    next b hpc =>
      split at hstep <;> cases hstep
      exact .goto hpc (.inner rfl)
    next => cases hstep
  | kill pid | fork | wait addr =>
    obtain ⟨hpc, -, p, -, hcall⟩ := syscall_cases hstep
    cases hcall
    exact .goto hpc (.calls rfl rfl)
  | exit status =>
    obtain ⟨hpc, -, p, hproc, hcall⟩ := syscall_cases hstep
    cases hcall
    unfold Sched.exit
    split
    next => exact .panic _
    next hinit =>
      refine ⟨changes_refl, fun d hd => by simp [hd], rfl, Or.inl (by simp), Or.inr ?_, Or.inr ?_⟩
      · exact .exit p status hpc hproc hinit (by simp) rfl rfl rfl rfl
      · rw [hpc, goto_cpu, update_self]
        exact .exit fun hexits => by
          simpa [Machine.goto, setCpu] using congrArg List.length hexits

end Effect

end Sched
end Xv6
