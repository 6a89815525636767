import Mathlib.Tactic
import Xv6.Sched.Machine

/-!
# A process runs on at most one CPU

The lock of a process is taken by one thread and released by another, across `swtch`.
The invariant says what each CPU has to do with the process that its `proc` names, and
which locks it holds at which place.

Main results:

- Theorem {lit}`Inv.step`: every step of every CPU keeps the invariant.
- Theorem {lit}`runs_on_one_cpu`: in every run a process whose lock is free is running
  exactly if one CPU executes it, contexts are loaded only after they have been saved,
  and no slot is freed under a CPU.
-/

namespace Xv6
namespace Sched

open Lib Machine Function

/-! ## Places -/

/-- The process locks that the code at a place holds. -/
def Pc.held (init : Nat) (proc : Option Nat) : Pc → List Nat
  | .test i | .dispatch i | .load i | .back i | .drop i | .wakeupSet _ i _ | .killSet _ i
  | .forkTest _ i | .forkAlloc _ i | .forkCopy _ i => [i]
  | .yieldSet p _ | .yieldBack p _ | .sleepRelease p _ _ | .sleepSet p _ _ | .sleepBack p _ _
  | .exitParent p _ | .waitScan p _ _ _ | .waitChild p _ _ | .waitRelease p | .waitSleep p _
  | .waitBack p _ => [p]
  | .exitWake _ _ => [init]
  | .exitLockSelf _ _ q => [q]
  | .reparent p _ q _ | .reparentLock p _ q _ | .exitZombie p _ q => [p, q]
  | .exitRelease p q => [q, p]
  | .reparentSet p _ q i => [i, p, q]
  | .waitTest p _ i => [i, p]
  | .sched _ | .swtch | .forkret | .zombie => proc.toList
  | .scan _ | .user | .intr _ | .wakeup _ _ _ | .yield _ | .sleep _ _ | .sleepAcquire _ _
  | .kill _ _ | .fork _ _ | .exitInit _ _ | .exitSelf _ _ | .exitLockParent _ _ _
  | .waitLock _ _ => []

def Cpu.held (init : Nat) (x : Cpu) : List Nat := x.pc.held init x.proc

/-- The process locks after taking a lock. -/
def Lock.add : Lock → List Nat → List Nat
  | .proc i, held => i :: held
  | .other _, held => held

namespace Pc

/-- A place without process locks, at which the code can be interrupted. -/
def free : Pc → Bool
  | .scan _ | .user | .intr _ | .wakeup _ _ _ | .yield _ | .sleep _ _ | .sleepAcquire _ _
  | .kill _ _ | .fork _ _ | .exitInit _ _ | .exitSelf _ _ | .exitLockParent _ _ _
  | .waitLock _ _ => true
  | _ => false

/-- The places to which `sched` returns. -/
def resumes : Pc → Bool
  | .yieldBack _ _ | .sleepBack _ _ _ | .waitBack _ _ | .zombie | .forkret => true
  | _ => false

/-- The state of the process has been changed, and the CPU is about to leave it. -/
def leaving : Pc → Bool
  | .sched _ | .exitRelease _ _ => true
  | _ => false

/-- The code is `scheduler` with no process, or an interrupt of it. -/
def Idle : Pc → Prop
  | .scan _ | .test _ | .drop _ => True
  | .intr b | .wakeup _ _ b | .wakeupSet _ _ b => b.free = true ∧ b.Idle
  | _ => False

/-- The code is on the kernel stack of process `p`, which is its `myproc()`. -/
def Of (p : Nat) : Pc → Prop
  | .user | .forkret | .zombie | .sleep _ _ | .sleepAcquire _ _ | .kill _ _ | .killSet _ _ => True
  | .intr b | .wakeup _ _ b | .wakeupSet _ _ b | .yield b => b.free = true ∧ b.Of p
  | .yieldSet q b | .yieldBack q b => q = p ∧ b.free = true ∧ b.Of p
  | .sched b => b.resumes = true ∧ b.Of p
  | .sleepRelease q _ _ | .sleepSet q _ _ | .sleepBack q _ _ | .fork q _ | .forkTest q _
  | .forkAlloc q _ | .forkCopy q _ | .exitInit q _ | .exitWake q _ | .exitSelf q _
  | .exitParent q _ | .exitLockParent q _ _ | .exitLockSelf q _ _ | .reparent q _ _ _
  | .reparentLock q _ _ _ | .reparentSet q _ _ _ | .exitZombie q _ _ | .exitRelease q _
  | .waitLock q _ | .waitScan q _ _ _ | .waitChild q _ _ | .waitTest q _ _ | .waitRelease q
  | .waitSleep q _ | .waitBack q _ => q = p
  | .scan _ | .test _ | .dispatch _ | .load _ | .back _ | .drop _ | .swtch => False

/-- A `fork` at this place is setting up slot `np`. -/
def setup (np : Nat) : Pc → Bool
  | .forkAlloc _ i | .forkCopy _ i => i = np
  | _ => false

/-- ... and has set up its context. -/
def copying (np : Nat) : Pc → Bool
  | .forkCopy _ i => i = np
  | _ => false

/-- The places of a process about to give up its CPU. -/
theorem leaving_cases {pc : Pc} (h : pc.leaving = true) :
    (∃ b, pc = .sched b) ∨ ∃ p q, pc = .exitRelease p q := by
  cases pc <;> simp [leaving] at h ⊢

/-- A place with no lock of a process. -/
theorem held_of_free {pc : Pc} (h : pc.free = true) (init : Nat) (proc : Option Nat) :
    pc.held init proc = [] := by
  cases pc <;> first | rfl | cases h

end Pc

/-! ## The invariant -/

/-- What a CPU has to do with the process that its `proc` names. -/
inductive Phase (m : Machine) (x : Cpu) : Prop where
  /-- There is none. -/
  | idle (hproc : x.proc = none) (hpc : x.pc.Idle)
  /-- The scheduler is switching to it. -/
  | picked (i : Nat) (hproc : x.proc = some i)
      (hpc : x.pc = .dispatch i ∨ (x.pc = .load i ∧ x.context = some (.back i)))
      (hstate : (m.slot i).state = .running) (hcontext : (m.slot i).context ≠ none)
  /-- The CPU executes it. -/
  | active (p : Nat) (hproc : x.proc = some p) (hpc : x.pc.Of p) (hstay : x.pc.leaving = false)
      (hstate : (m.slot p).state = .running) (hcontext : (m.slot p).context = none)
      (hback : x.context = some (.back p))
      (hsetup : ∀ np, x.pc.setup np = true → (m.slot np).state = .unused)
      (hcopy : ∀ np, x.pc.copying np = true → (m.slot np).context ≠ none)
  /-- ... and is about to leave it. -/
  | leaving (p : Nat) (hproc : x.proc = some p) (hpc : x.pc.Of p) (hleave : x.pc.leaving = true)
      (hstate : (m.slot p).state ≠ .running) (hused : (m.slot p).state ≠ .unused)
      (hcontext : (m.slot p).context = none) (hback : x.context = some (.back p))
  /-- Its context has been saved. -/
  | saved (p : Nat) (hproc : x.proc = some p) (hpc : x.pc = .swtch)
      (hstate : (m.slot p).state ≠ .running) (hused : (m.slot p).state ≠ .unused)
      (hcontext : (m.slot p).context ≠ none) (hback : x.context = some (.back p))
  /-- The scheduler is back. -/
  | back (i : Nat) (hproc : x.proc = some i) (hpc : x.pc = .back i)
      (hstate : (m.slot i).state ≠ .running) (hused : (m.slot i).state ≠ .unused)
      (hcontext : (m.slot i).context ≠ none)

structure Inv (m : Machine) : Prop where
  lock : ∀ l c, m.lock l = some c ↔ l ∈ (m.cpu c).locks
  nodup : ∀ c, (m.cpu c).locks.Nodup
  held : ∀ c i, .proc i ∈ (m.cpu c).locks ↔ i ∈ (m.cpu c).held m.initproc
  distinct : ∀ c, ((m.cpu c).held m.initproc).Nodup
  phase : ∀ c, Phase m (m.cpu c)
  one : ∀ c d i, (m.cpu c).proc = some i → (m.cpu d).proc = some i → c = d
  running : ∀ i, (m.slot i).state = .running → ∃ c, (m.cpu c).proc = some i
  saved : ∀ i, (m.slot i).context = none → (m.slot i).state = .unused ∨ ∃ c, (m.cpu c).proc = some i
  resume : ∀ i pc, (m.slot i).context = some pc → pc.resumes = true ∧ pc.Of i
  calm : m.panicked ≠ some "sched running"

section Facts

variable {m : Machine} {c d i p : Nat}

/-- A CPU has the locks that its place asks for. -/
theorem Inv.lock_of_held (h : Inv m) (hi : i ∈ (m.cpu c).held m.initproc) :
    m.lock (.proc i) = some c :=
  (h.lock _ _).mpr ((h.held c i).mpr hi)

/-- A process whose CPU is not executing it undisturbed is locked by that CPU. -/
theorem Inv.locked_or_running (h : Inv m) (hproc : (m.cpu c).proc = some i) :
    m.lock (.proc i) = some c ∨
      ((m.slot i).state = .running ∧ (m.cpu c).pc.Of i ∧ (m.cpu c).pc.leaving = false) := by
  cases h.phase c with
  | idle hnone _ => simp [hnone] at hproc
  | picked j hj hpc _ _ =>
    cases hproc.symm.trans hj
    left
    apply h.lock_of_held
    rcases hpc with hpc | ⟨hpc, -⟩ <;> simp [Cpu.held, Pc.held, hpc]
  | active j hj hof hstay hstate _ _ _ _ =>
    cases hproc.symm.trans hj
    exact Or.inr ⟨hstate, hof, hstay⟩
  | leaving j hj hof hleave _ _ _ _ =>
    cases hproc.symm.trans hj
    left
    apply h.lock_of_held
    obtain ⟨b, hpc⟩ | ⟨p, q, hpc⟩ := Pc.leaving_cases hleave
    · simp [Cpu.held, Pc.held, hpc, hproc]
    · rw [hpc] at hof
      simp [Cpu.held, Pc.held, hpc, show p = i from hof]
  | saved j hj hpc _ _ _ _ =>
    left
    apply h.lock_of_held
    simp [Cpu.held, Pc.held, hpc, hproc]
  | back j hj hpc _ _ _ =>
    cases hproc.symm.trans hj
    left
    apply h.lock_of_held
    simp [Cpu.held, Pc.held, hpc]

/-- The process of a CPU is in use. -/
theorem Inv.used (h : Inv m) (hproc : (m.cpu c).proc = some i) : (m.slot i).state ≠ .unused := by
  cases h.phase c with
  | idle hnone _ => simp [hnone] at hproc
  | picked j hj _ hstate _ | active j hj _ _ hstate _ _ _ _ =>
    cases hproc.symm.trans hj
    simp [hstate]
  | leaving j hj _ _ _ hused _ _ | saved j hj _ _ hused _ _ | back j hj _ _ hused _ =>
    cases hproc.symm.trans hj
    exact hused

/-- No other CPU has to do with a process that is locked and not running. -/
theorem Inv.alone (h : Inv m) (hlock : m.lock (.proc i) = some c)
    (hstate : (m.slot i).state ≠ .running) (hproc : (m.cpu d).proc = some i) : d = c := by
  rcases h.locked_or_running hproc with hd | ⟨hrun, -, -⟩
  · exact Option.some.inj (hd.symm.trans hlock)
  · exact absurd hrun hstate

end Facts

/-! ## Steps of one CPU -/

/-- What matters to other CPUs is unchanged. -/
def Same (x x' : Slot) : Prop :=
  x'.state = x.state ∧ x'.context = x.context

/-- CPU `c` may change the slot. -/
def Owns (m : Machine) (c i : Nat) : Prop :=
  (m.cpu c).proc = some i ∨ (m.lock (.proc i) = some c ∧ (m.slot i).state ≠ .running)

/-- The locks after a step of CPU `c`, which is then `y`. -/
structure LockStep (m m' : Machine) (c : Nat) (y : Cpu) : Prop where
  mine : ∀ l, m'.lock l = some c ↔ l ∈ y.locks
  others : ∀ l d, d ≠ c → (m'.lock l = some d ↔ m.lock l = some d)
  nodup : y.locks.Nodup
  held : ∀ i, .proc i ∈ y.locks ↔ i ∈ y.held m.initproc
  distinct : (y.held m.initproc).Nodup

section Update

variable {m m' : Machine} {c d : Nat} {x y : Cpu}

namespace Pc

variable {pc : Pc} {np : Nat}

/-- A child being copied is being set up. -/
theorem setup_of_copying (h : pc.copying np = true) : pc.setup np = true := by
  cases pc <;> first | exact h | cases h

/-- A child is set up under its lock. -/
theorem mem_held_of_setup (h : pc.setup np = true) (init : Nat) (proc : Option Nat) :
    np ∈ pc.held init proc := by
  cases pc <;> simp [setup] at h
  all_goals simp [held, h]

end Pc

/-- Only the slots of the CPU's own process and of its child matter. -/
theorem Phase.congr (h : Phase m x) (hproc : ∀ p, x.proc = some p → Same (m.slot p) (m'.slot p))
    (hfork : ∀ np, x.pc.setup np = true → (m.slot np).state = .unused →
      Same (m.slot np) (m'.slot np)) : Phase m' x := by
  cases h with
  | idle hp hpc => exact .idle hp hpc
  | picked i hp hpc hstate hcontext =>
    obtain ⟨hs, hc⟩ := hproc i hp
    exact .picked i hp hpc (hs ▸ hstate) (hc ▸ hcontext)
  | active p hp hpc hstay hstate hcontext hback hsetup hcopy =>
    obtain ⟨hs, hc⟩ := hproc p hp
    have hsame := fun np hnp => hfork np hnp (hsetup np hnp)
    refine .active p hp hpc hstay (hs ▸ hstate) (hc ▸ hcontext) hback (fun np hnp => ?_)
      fun np hnp => ?_
    · rw [(hsame np hnp).1]
      exact hsetup np hnp
    · rw [(hsame np (Pc.setup_of_copying hnp)).2]
      exact hcopy np hnp
  | leaving p hp hpc hleave hstate hused hcontext hback =>
    obtain ⟨hs, hc⟩ := hproc p hp
    exact .leaving p hp hpc hleave (hs ▸ hstate) (hs ▸ hused) (hc ▸ hcontext) hback
  | saved p hp hpc hstate hused hcontext hback =>
    obtain ⟨hs, hc⟩ := hproc p hp
    exact .saved p hp hpc (hs ▸ hstate) (hs ▸ hused) (hc ▸ hcontext) hback
  | back i hp hpc hstate hused hcontext =>
    obtain ⟨hs, hc⟩ := hproc i hp
    exact .back i hp hpc (hs ▸ hstate) (hs ▸ hused) (hc ▸ hcontext)

/-- Another CPU is not concerned: its process and the slot of its `fork` belong to it. -/
theorem Inv.phase_other (h : Inv m) (hslot : ∀ i, Same (m.slot i) (m'.slot i) ∨ Owns m c i)
    (hd : d ≠ c) : Phase m' (m.cpu d) := by
  refine (h.phase d).congr (fun p hp => (hslot p).resolve_right ?_) fun np hnp hunused =>
    (hslot np).resolve_right ?_
  · rintro (hc | ⟨hlock, hstate⟩)
    · exact hd (h.one d c p hp hc)
    · exact hd (h.alone hlock hstate hp)
  · rintro (hc | ⟨hlock, -⟩)
    · exact h.used hc hunused
    · have hmine := h.lock_of_held (Pc.mem_held_of_setup hnp m.initproc (m.cpu d).proc)
      exact hd (Option.some.inj (hmine.symm.trans hlock))

/-- The invariant after a step of CPU `c`. -/
theorem Inv.advance (h : Inv m) (hcpu : m'.cpu = update m.cpu c y)
    (hinit : m'.initproc = m.initproc) (hpanic : m'.panicked = m.panicked)
    (hslot : ∀ i, Same (m.slot i) (m'.slot i) ∨ Owns m c i) (hlocks : LockStep m m' c y)
    (hphase : Phase m' y) (hproc : ∀ i d, y.proc = some i → d ≠ c → (m.cpu d).proc ≠ some i)
    (hrun : ∀ i, (m'.slot i).state = .running →
      y.proc = some i ∨ ((m.slot i).state = .running ∧ (m.cpu c).proc ≠ some i))
    (hsaved : ∀ i, (m'.slot i).context = none → (m'.slot i).state = .unused ∨ y.proc = some i ∨
      ((m.slot i).context = none ∧ (m.slot i).state ≠ .unused ∧ (m.cpu c).proc ≠ some i))
    (hresume : ∀ i pc, (m'.slot i).context = some pc → pc.resumes = true ∧ pc.Of i) : Inv m' := by
  have hown : m'.cpu c = y := by rw [hcpu, update_self]
  have hother : ∀ {d}, d ≠ c → m'.cpu d = m.cpu d := fun hd => by rw [hcpu, update_of_ne hd]
  constructor
  case lock =>
    intro l d
    obtain rfl | hd := eq_or_ne d c
    · rw [hown, hlocks.mine]
    · rw [hother hd, hlocks.others l d hd, h.lock]
  case nodup =>
    intro d
    obtain rfl | hd := eq_or_ne d c
    · exact hown ▸ hlocks.nodup
    · exact hother hd ▸ h.nodup d
  case held =>
    intro d i
    obtain rfl | hd := eq_or_ne d c
    · rw [hown, hinit, hlocks.held]
    · rw [hother hd, hinit, h.held]
  case distinct =>
    intro d
    rw [hinit]
    obtain rfl | hd := eq_or_ne d c
    · exact hown ▸ hlocks.distinct
    · exact hother hd ▸ h.distinct d
  case phase =>
    intro d
    obtain rfl | hd := eq_or_ne d c
    · exact hown ▸ hphase
    · exact hother hd ▸ h.phase_other hslot hd
  case one =>
    intro d e i hdi hei
    by_cases hd : d = c <;> by_cases he : e = c
    · rw [hd, he]
    · rw [hd, hown] at hdi
      rw [hother he] at hei
      exact absurd hei (hproc i e hdi he)
    · rw [he, hown] at hei
      rw [hother hd] at hdi
      exact absurd hdi (hproc i d hei hd)
    · rw [hother hd] at hdi
      rw [hother he] at hei
      exact h.one d e i hdi hei
  case running =>
    intro i hi
    rcases hrun i hi with hc | ⟨hold, hnot⟩
    · exact ⟨c, hown ▸ hc⟩
    · obtain ⟨d, hd⟩ := h.running i hold
      exact ⟨d, by rw [hother fun heq => hnot (heq ▸ hd), hd]⟩
  case saved =>
    intro i hi
    rcases hsaved i hi with hunused | hc | ⟨hnone, hused, hnot⟩
    · exact Or.inl hunused
    · exact Or.inr ⟨c, hown ▸ hc⟩
    · obtain ⟨d, hd⟩ := (h.saved i hnone).resolve_left hused
      exact Or.inr ⟨d, by rw [hother fun heq => hnot (heq ▸ hd), hd]⟩
  case resume => exact hresume
  case calm => exact hpanic ▸ h.calm

/-! ### Locks -/

/-- A step that neither takes nor releases a lock. -/
theorem LockStep.stay (h : Inv m) (hlock : m'.lock = m.lock) (hlocks : y.locks = (m.cpu c).locks)
    (hheld : (y.held m.initproc).Perm ((m.cpu c).held m.initproc)) : LockStep m m' c y where
  mine l := by rw [hlock, hlocks]; exact h.lock l c
  others l d _ := by rw [hlock]
  nodup := by rw [hlocks]; exact h.nodup c
  held i := by rw [hlocks, hheld.mem_iff]; exact h.held c i
  distinct := hheld.nodup_iff.mpr (h.distinct c)

/-- The locks after a successful `acquire`. -/
theorem LockStep.acquire {l : Lock} (h : Inv m) (hfree : m.lock l = none)
    (hlock : m'.lock = update m.lock l (some c)) (hlocks : y.locks = l :: (m.cpu c).locks)
    (hheld : (y.held m.initproc).Perm (l.add ((m.cpu c).held m.initproc))) :
    LockStep m m' c y := by
  have hnew : l ∉ (m.cpu c).locks := by
    rw [← h.lock, hfree]
    simp
  refine ⟨fun k => ?_, fun k d hd => ?_, ?_, fun i => ?_, ?_⟩
  · obtain rfl | hk := eq_or_ne k l
    · simp [hlock, hlocks]
    · rw [hlock, update_of_ne hk, hlocks, List.mem_cons, h.lock]
      simp [hk]
  · obtain rfl | hk := eq_or_ne k l
    · simp [hlock, hfree, Ne.symm hd]
    · rw [hlock, update_of_ne hk]
  · rw [hlocks]
    exact List.nodup_cons.mpr ⟨hnew, h.nodup c⟩
  · rw [hlocks, hheld.mem_iff, List.mem_cons, h.held]
    cases l <;> simp [Lock.add]
  · rw [hheld.nodup_iff]
    cases l with
    | other k => exact h.distinct c
    | proc i => exact List.nodup_cons.mpr ⟨fun hi => hnew ((h.held c i).mpr hi), h.distinct c⟩

/-- The locks after a successful `release`. -/
theorem LockStep.release {l : Lock} (h : Inv m) (hmine : m.lock l = some c)
    (hlock : m'.lock = update m.lock l none) (hlocks : y.locks = (m.cpu c).locks.erase l)
    (hheld : ((m.cpu c).held m.initproc).Perm (l.add (y.held m.initproc))) :
    LockStep m m' c y := by
  have hdistinct := hheld.nodup_iff.mp (h.distinct c)
  refine ⟨fun k => ?_, fun k d hd => ?_, ?_, fun i => ?_, ?_⟩
  · rw [hlocks, (h.nodup c).mem_erase_iff, hlock]
    obtain rfl | hk := eq_or_ne k l
    · simp
    · rw [update_of_ne hk, h.lock]
      simp [hk]
  · obtain rfl | hk := eq_or_ne k l
    · simp [hlock, hmine, Ne.symm hd]
    · rw [hlock, update_of_ne hk]
  · rw [hlocks]
    exact (h.nodup c).erase l
  · rw [hlocks, (h.nodup c).mem_erase_iff, h.held, hheld.mem_iff]
    cases l with
    | other k => simp [Lock.add]
    | proc j =>
      have hj := (List.nodup_cons.mp hdistinct).1
      simp only [Lock.add, ne_eq, Lock.proc.injEq, List.mem_cons]
      constructor
      · rintro ⟨hne, rfl | hi⟩
        · exact absurd rfl hne
        · exact hi
      · intro hi
        exact ⟨fun heq => hj (heq ▸ hi), Or.inr hi⟩
  · cases l with
    | other k => exact hdistinct
    | proc j => exact (List.nodup_cons.mp hdistinct).2

/-! ### Steps that keep the process -/

/-- CPU `c` changes a slot that it has locked and that is not running. -/
structure Touch (m : Machine) (c i : Nat) (x : Slot) : Prop where
  lock : m.lock (.proc i) = some c
  idle : (m.slot i).state ≠ .running
  state : x.state ≠ .running
  context : x.context = none → x.state = .unused ∨
    ((m.slot i).context = none ∧ (m.slot i).state ≠ .unused)
  resume : ∀ pc, x.context = some pc → pc.resumes = true ∧ pc.Of i

/-- CPU `c` changes the slot of its own process. -/
structure Own (m : Machine) (c i : Nat) (x : Slot) : Prop where
  proc : (m.cpu c).proc = some i
  resume : ∀ pc, x.context = some pc → pc.resumes = true ∧ pc.Of i

/-- The slots after a step that concerns no process of a CPU. -/
def Quiet (m : Machine) (c : Nat) (slot : Nat → Slot) : Prop :=
  ∀ i, Same (m.slot i) (slot i) ∨ Touch m c i (slot i)

/-- CPU `c` becomes `y` and goes on with the process it has, or with none. -/
structure Local (m m' : Machine) (c : Nat) (y : Cpu) : Prop where
  cpu : m'.cpu = update m.cpu c y
  init : m'.initproc = m.initproc
  panicked : m'.panicked = m.panicked
  slots : ∀ i, (Same (m.slot i) (m'.slot i) ∨ Touch m c i (m'.slot i)) ∨ Own m c i (m'.slot i)
  locks : LockStep m m' c y
  proc : y.proc = (m.cpu c).proc

/-- A step that leaves the slots alone. -/
theorem quiet_refl : Quiet m c m.slot := fun _ => Or.inl ⟨rfl, rfl⟩

/-- A step of one CPU keeps the invariant, if its own process and child are right. -/
theorem Inv.local (h : Inv m) (hl : Local m m' c y) (hphase : Phase m' y) : Inv m' := by
  refine h.advance hl.cpu hl.init hl.panicked ?_ hl.locks hphase ?_ ?_ ?_ ?_
  all_goals intro i
  · rcases hl.slots i with (hs | ht) | ho
    · exact Or.inl hs
    · exact Or.inr (Or.inr ⟨ht.lock, ht.idle⟩)
    · exact Or.inr (Or.inl ho.proc)
  · intro d hi hd hdi
    rw [hl.proc] at hi
    exact hd (h.one d c i hdi hi)
  · intro hi
    rw [hl.proc]
    by_cases hp : (m.cpu c).proc = some i
    · exact Or.inl hp
    · rcases hl.slots i with (⟨hs, -⟩ | ht) | ho
      · exact Or.inr ⟨hs ▸ hi, hp⟩
      · exact absurd hi ht.state
      · exact absurd ho.proc hp
  · intro hi
    rw [hl.proc]
    by_cases hp : (m.cpu c).proc = some i
    · exact Or.inr (Or.inl hp)
    · rcases hl.slots i with (⟨hs, hc⟩ | ht) | ho
      · by_cases hunused : (m.slot i).state = .unused
        · exact Or.inl (hs.trans hunused)
        · exact Or.inr (Or.inr ⟨hc ▸ hi, hunused, hp⟩)
      · exact (ht.context hi).imp_right fun hold => Or.inr ⟨hold.1, hold.2, hp⟩
      · exact absurd ho.proc hp
  · intro pc hi
    rcases hl.slots i with (⟨-, hc⟩ | ht) | ho
    · exact h.resume i pc (hc ▸ hi)
    · exact ht.resume pc hi
    · exact ho.resume pc hi

/-- The places of `scheduler` with a process, and of `sched`. -/
def Pc.switching : Pc → Bool
  | .dispatch _ | .load _ | .back _ | .swtch | .sched _ | .exitRelease _ _ => true
  | _ => false

/-- CPU `c` executes process `p`. -/
structure Active (m : Machine) (c p : Nat) : Prop where
  proc : (m.cpu c).proc = some p
  of : (m.cpu c).pc.Of p
  state : (m.slot p).state = .running
  context : (m.slot p).context = none
  back : (m.cpu c).context = some (.back p)

/-- A CPU outside `swtch` is in the scheduler or runs a process. -/
theorem Inv.active_or_idle (h : Inv m) (hpc : (m.cpu c).pc.switching = false) :
    ((m.cpu c).proc = none ∧ (m.cpu c).pc.Idle) ∨ ∃ p, Active m c p := by
  cases h.phase c with
  | idle hproc hidle => exact Or.inl ⟨hproc, hidle⟩
  | active p hproc hof hstay hstate hcontext hback =>
    exact Or.inr ⟨p, hproc, hof, hstate, hcontext, hback⟩
  | picked i _ hpc' =>
    rcases hpc' with hpc' | ⟨hpc', -⟩ <;> simp [hpc', Pc.switching] at hpc
  | leaving p _ _ hleave =>
    obtain ⟨b, hpc'⟩ | ⟨p, q, hpc'⟩ := Pc.leaving_cases hleave <;> simp [hpc', Pc.switching] at hpc
  | saved p _ hpc' | back i _ hpc' => simp [hpc', Pc.switching] at hpc

/-- The code goes from `old` to `pc`.  The proofs that are given are those for a step
inside a function, or from its end to user code. -/
structure Goes (m : Machine) (c : Nat) (slot : Nat → Slot) (old pc : Pc) : Prop where
  hold : old.switching = false := by rfl
  hnew : pc.switching = false := by rfl
  idle : (m.cpu c).proc = none → old.Idle → pc.Idle := by exact fun _ => id
  of : ∀ p, (m.cpu c).proc = some p → old.Of p → pc.Of p := by
    first | exact fun _ _ => id | exact fun _ _ _ => trivial
  setup : ∀ np, pc.setup np = true → (slot np).state = .unused := by exact nofun
  copying : ∀ np, pc.copying np = true → (slot np).context ≠ none := by exact nofun

/-- A step of the code at one place keeps the invariant. -/
theorem Inv.goes {old : Pc} (h : Inv m) (hpc : (m.cpu c).pc = old)
    (hcpu : m'.cpu = update m.cpu c y) (hinit : m'.initproc = m.initproc)
    (hpanic : m'.panicked = m.panicked) (hslots : Quiet m c m'.slot) (hlocks : LockStep m m' c y)
    (hproc : y.proc = (m.cpu c).proc) (hcontext : y.context = (m.cpu c).context)
    (hg : Goes m c m'.slot old y.pc) : Inv m' := by
  refine h.local ⟨hcpu, hinit, hpanic, fun i => Or.inl (hslots i), hlocks, hproc⟩ ?_
  rcases h.active_or_idle (hpc ▸ hg.hold) with ⟨hnone, hidle⟩ | ⟨p, ha⟩
  · exact .idle (hproc.trans hnone) (hg.idle hnone (hpc ▸ hidle))
  · have hsame := (hslots p).resolve_right fun ht => ht.idle ha.state
    refine .active p (hproc.trans ha.proc) (hg.of p ha.proc (hpc ▸ ha.of)) ?_
      (hsame.1.trans ha.state) (hsame.2.trans ha.context) (hcontext.trans ha.back) hg.setup
      hg.copying
    have hnew := hg.hnew
    cases hy : y.pc <;> first | rfl | simp [hy, Pc.switching] at hnew

end Update

/-! ## The steps of the code -/

section Run

variable {m m' : Machine} {c i : Nat} {l : Lock} {pc old : Pc}

/-- Pids, histories and panics do not matter. -/
theorem Inv.congr (h : Inv m) (hslot : m'.slot = m.slot) (hcpu : m'.cpu = m.cpu)
    (hlock : m'.lock = m.lock) (hinit : m'.initproc = m.initproc)
    (hcalm : m'.panicked ≠ some "sched running") : Inv m' where
  lock := by rw [hlock, hcpu]; exact h.lock
  nodup := by rw [hcpu]; exact h.nodup
  held := by rw [hcpu, hinit]; exact h.held
  distinct := by rw [hcpu, hinit]; exact h.distinct
  phase c := by
    rw [hcpu]
    exact (h.phase c).congr (fun _ _ => hslot ▸ ⟨rfl, rfl⟩) fun _ _ _ => hslot ▸ ⟨rfl, rfl⟩
  one := by rw [hcpu]; exact h.one
  running := by rw [hslot, hcpu]; exact h.running
  saved := by rw [hslot, hcpu]; exact h.saved
  resume := by rw [hslot]; exact h.resume
  calm := hcalm

/-- Any other panic. -/
theorem Inv.panic (h : Inv m) {msg : String} (hmsg : msg ≠ "sched running") : Inv (m.panic msg) :=
  h.congr rfl rfl rfl rfl fun heq => hmsg (Option.some.inj heq)

/-- What `acquire` can do. -/
theorem acquire_cases (h : m.acquire c l pc = some m') :
    (m.lock l = none ∧ m' = m.took c l pc) ∨ (m.lock l = some c ∧ m' = m.panic "acquire") := by
  unfold Machine.acquire at h
  split at h
  next hfree => exact Or.inl ⟨hfree, (Option.some.inj h).symm⟩
  next d hd =>
    split at h
    next heq => exact Or.inr ⟨heq ▸ hd, (Option.some.inj h).symm⟩
    next => cases h

/-- `release` of a lock the CPU has. -/
theorem release_eq (h : m.release c l pc = some m') (hlock : m.lock l = some c) :
    m' = m.gave c l pc := by
  unfold Machine.release at h
  rw [if_pos hlock] at h
  exact (Option.some.inj h).symm

/-- The code takes a lock. -/
theorem Inv.acquires (h : Inv m) (hpc : (m.cpu c).pc = old) (hstep : m.acquire c l pc = some m')
    (hg : Goes m c m.slot old pc := by exact {})
    (hheld : (pc.held m.initproc (m.cpu c).proc).Perm
      (l.add (old.held m.initproc (m.cpu c).proc)) := by exact .refl _) : Inv m' := by
  subst hpc
  rcases acquire_cases hstep with ⟨hfree, rfl⟩ | ⟨-, rfl⟩
  · exact h.goes rfl rfl rfl rfl quiet_refl (.acquire h hfree rfl rfl hheld) rfl rfl hg
  · exact h.panic (by decide)

/-- The code changes slot `i` and releases it. -/
theorem Inv.sets {x : Slot} (h : Inv m) (hpc : (m.cpu c).pc = old)
    (hstep : m.setRelease c i x pc = some m') (hi : i ∈ old.held m.initproc (m.cpu c).proc)
    (hslots : Quiet m c (update m.slot i x))
    (hg : Goes m c (update m.slot i x) old pc := by exact {})
    (hheld : (old.held m.initproc (m.cpu c).proc).Perm
      (i :: pc.held m.initproc (m.cpu c).proc) := by exact .refl _) : Inv m' := by
  subst hpc
  have hlock := h.lock_of_held hi
  obtain rfl := release_eq hstep hlock
  exact h.goes rfl rfl rfl rfl hslots (.release h hlock rfl rfl hheld) rfl rfl hg

/-- The code releases a lock. -/
theorem Inv.releases (h : Inv m) (hpc : (m.cpu c).pc = old) (hstep : m.release c l pc = some m')
    (hg : Goes m c m.slot old pc := by exact {})
    (hheld : (old.held m.initproc (m.cpu c).proc).Perm
      (l.add (pc.held m.initproc (m.cpu c).proc)) := by exact .refl _) : Inv m' := by
  subst hpc
  by_cases hlock : m.lock l = some c
  · obtain rfl := release_eq hstep hlock
    exact h.goes rfl rfl rfl rfl quiet_refl (.release h hlock rfl rfl hheld) rfl rfl hg
  · rw [Machine.release, if_neg hlock] at hstep
    cases hstep
    exact h.panic (by decide)

/-- The code changes a slot, or none, and goes on without a lock operation. -/
theorem Inv.gotos (h : Inv m) {slot : Nat → Slot} (hpc : (m.cpu c).pc = old)
    (hslots : Quiet m c slot) (hg : Goes m c slot old pc := by exact {})
    (hheld : (pc.held m.initproc (m.cpu c).proc).Perm (old.held m.initproc (m.cpu c).proc) := by
      exact .refl _) : Inv ({ m with slot := slot }.goto c pc) := by
  subst hpc
  exact h.goes rfl rfl rfl rfl hslots (.stay h rfl rfl hheld) rfl rfl hg

theorem Inv.moves (h : Inv m) (hpc : (m.cpu c).pc = old)
    (hg : Goes m c m.slot old pc := by exact {})
    (hheld : (pc.held m.initproc (m.cpu c).proc).Perm (old.held m.initproc (m.cpu c).proc) := by
      exact .refl _) : Inv (m.goto c pc) :=
  h.gotos hpc quiet_refl hg hheld

/-- One slot has been changed, in a way that does not matter or under its lock. -/
theorem quiet_set {x : Slot} (hx : Same (m.slot i) x ∨ Touch m c i x) :
    Quiet m c (update m.slot i x) := by
  intro j
  obtain rfl | hj := eq_or_ne j i
  · rwa [update_self]
  · rw [update_of_ne hj]
    exact quiet_refl j

/-- A slot that is freed. -/
theorem Inv.touch_free (h : Inv m) (hlock : m.lock (.proc i) = some c)
    (hstate : (m.slot i).state ≠ .running) : Touch m c i (m.slot i).freeproc :=
  ⟨hlock, hstate, by simp [Slot.freeproc], fun _ => Or.inl rfl, h.resume i⟩

namespace Pc

variable {b : Pc}

/-- Code without a lock is not in `swtch`. -/
theorem switching_of_free (h : b.free = true) : b.switching = false := by
  cases b <;> first | rfl | cases h

/-- Code without a lock does not set up a child. -/
theorem setup_of_free (h : b.free = true) (np : Nat) : b.setup np = false := by
  cases b <;> first | rfl | cases h

/-- A saved context is not about to give up its CPU. -/
theorem stay_of_resumes (h : b.resumes = true) : b.leaving = false := by
  cases b <;> first | rfl | cases h

/-- A saved context does not set up a child. -/
theorem setup_of_resumes (h : b.resumes = true) (np : Nat) : b.setup np = false := by
  cases b <;> first | rfl | cases h

/-- A thread that is resumed holds its own lock. -/
theorem held_of_resumes {p : Nat} (h : b.resumes = true) (hof : b.Of p) (init : Nat) :
    b.held init (some p) = [p] := by
  cases b with
  | yieldBack q b => obtain rfl : q = p := hof.1; rfl
  | sleepBack q ch k => obtain rfl : q = p := hof; rfl
  | waitBack q addr => obtain rfl : q = p := hof; rfl
  | zombie => rfl
  | forkret => rfl
  | _ => cases h

end Pc

/-- The code returns to a place that can be interrupted. -/
theorem Goes.free {slot : Nat → Slot} {b : Pc} (hb : b.free = true) (hold : old.switching = false)
    (hidle : (m.cpu c).proc = none → old.Idle → b.Idle)
    (hof : ∀ p, (m.cpu c).proc = some p → old.Of p → b.Of p) : Goes m c slot old b where
  hold := hold
  hnew := Pc.switching_of_free hb
  idle := hidle
  of := hof
  setup np hnp := by simp [Pc.setup_of_free hb] at hnp
  copying np hnp := by simpa [Pc.setup_of_free hb] using Pc.setup_of_copying hnp

/-- The code of a process returns to user space. -/
theorem Goes.user {slot : Nat → Slot} (hold : old.switching = false) (hidle : ¬old.Idle) :
    Goes m c slot old .user :=
  ⟨hold, rfl, fun _ hi => (hidle hi).elim, fun _ _ _ => trivial, nofun, nofun⟩

/-- `wakeup` and `kill` touch a slot only if it sleeps. -/
theorem Inv.quiet_wake (h : Inv m) {x : Slot} (hlock : m.lock (.proc i) = some c)
    (hx : x.state = (m.slot i).state ∨ ((m.slot i).state = .sleeping ∧ x.state = .runnable))
    (hcontext : x.context = (m.slot i).context) : Quiet m c (update m.slot i x) := by
  refine quiet_set (hx.imp (fun hs => ⟨hs, hcontext⟩) fun ⟨hsleep, hrun⟩ => ?_)
  refine ⟨hlock, by simp [hsleep], by simp [hrun], ?_, ?_⟩ <;> rw [hcontext]
  · exact fun hnone => Or.inr ⟨hnone, by simp [hsleep]⟩
  · exact h.resume i

/-- The state after `wakeup`. -/
theorem Slot.state_wakeup (x : Slot) (ch : Chan) :
    (x.wakeup ch).state = x.state ∨ (x.state = .sleeping ∧ (x.wakeup ch).state = .runnable) := by
  unfold Slot.wakeup
  split
  next h => exact Or.inr ⟨h.1, rfl⟩
  next => exact Or.inl rfl

/-- The context after `wakeup`. -/
theorem Slot.context_wakeup (x : Slot) (ch : Chan) : (x.wakeup ch).context = x.context := by
  unfold Slot.wakeup
  split <;> rfl

/-- The state after `wakeup1`. -/
theorem Slot.state_wakeup1 (x : Slot) (i : Nat) :
    (x.wakeup1 i).state = x.state ∨ (x.state = .sleeping ∧ (x.wakeup1 i).state = .runnable) := by
  unfold Slot.wakeup1
  split
  next h => exact Or.inr ⟨h.2, rfl⟩
  next => exact Or.inl rfl

/-- The context after `wakeup1`. -/
theorem Slot.context_wakeup1 (x : Slot) (i : Nat) : (x.wakeup1 i).context = x.context := by
  unfold Slot.wakeup1
  split <;> rfl

/-- The state after `kill`. -/
theorem Slot.state_kill (x : Slot) :
    x.kill.state = x.state ∨ (x.state = .sleeping ∧ x.kill.state = .runnable) := by
  unfold Slot.kill
  by_cases h : x.state = .sleeping
  · exact Or.inr ⟨h, if_pos h⟩
  · exact Or.inl (if_neg h)

/-- CPU `c` executes a process at a place that belongs to process code. -/
theorem Inv.active (h : Inv m) (hpc : (m.cpu c).pc = pc) (hswitch : pc.switching = false)
    (hidle : ¬pc.Idle) : ∃ p, Active m c p ∧ pc.Of p := by
  rcases h.active_or_idle (hpc ▸ hswitch) with ⟨-, hi⟩ | ⟨p, ha⟩
  · exact absurd (hpc ▸ hi) hidle
  · exact ⟨p, ha, hpc ▸ ha.of⟩

/-- The slot of the process of CPU `c` has been changed, after others. -/
theorem Inv.own_set {p : Nat} {x : Slot} {slot : Nat → Slot} (hproc : (m.cpu c).proc = some p)
    (hslots : ∀ i, i ≠ p → Same (m.slot i) (slot i) ∨ Touch m c i (slot i))
    (hresume : ∀ pc, x.context = some pc → pc.resumes = true ∧ pc.Of p) (i : Nat) :
    (Same (m.slot i) (update slot p x i) ∨ Touch m c i (update slot p x i)) ∨
      Own m c i (update slot p x i) := by
  obtain rfl | hi := eq_or_ne i p
  · rw [update_self]
    exact Or.inr ⟨hproc, hresume⟩
  · rw [update_of_ne hi]
    exact Or.inl (hslots i hi)

/-- `yield`, `sleep` and `exit` change the state of the process before `sched`. -/
theorem Inv.leaves {p : Nat} {x : Slot} {slot : Nat → Slot} (h : Inv m) (ha : Active m c p)
    (hslots : ∀ i, i ≠ p → Same (m.slot i) (slot i) ∨ Touch m c i (slot i))
    (hstate : x.state ≠ .running) (hused : x.state ≠ .unused)
    (hcontext : x.context = (m.slot p).context) (hof : pc.Of p) (hleave : pc.leaving = true)
    (hheld : (pc.held m.initproc (m.cpu c).proc).Perm ((m.cpu c).held m.initproc)) :
    Inv ({ m with slot := update slot p x }.goto c pc) := by
  rw [ha.context] at hcontext
  refine h.local ⟨rfl, rfl, rfl, Inv.own_set ha.proc hslots fun k hk => ?_,
    .stay h rfl rfl hheld, rfl⟩ (.leaving p ha.proc hof hleave ?_ ?_ ?_ ha.back)
  · simp [hcontext] at hk
  all_goals simpa

/-- The scheduler chooses a process. -/
theorem Inv.picks (h : Inv m) (hpc : (m.cpu c).pc = .test i)
    (hstate : (m.slot i).state = .runnable) :
    Inv ((m.setSlot i { m.slot i with state := .running }).setCpu c
      { m.cpu c with proc := some i, pc := .dispatch i }) := by
  have hlock : m.lock (.proc i) = some c := h.lock_of_held (by simp [Cpu.held, Pc.held, hpc])
  have hrunning : (m.slot i).state ≠ .running := by simp [hstate]
  obtain ⟨hnone, -⟩ := (h.active_or_idle (c := c) (by rw [hpc]; rfl)).resolve_right
    fun ⟨p, ha⟩ => (hpc ▸ ha.of : (Pc.test i).Of p)
  -- whoever has the process has its lock
  have hfree : ∀ d, (m.cpu d).proc ≠ some i := by
    intro d hd
    obtain rfl := h.alone hlock hrunning hd
    simp [hnone] at hd
  have hcontext : (m.slot i).context ≠ none := by
    intro hzero
    obtain ⟨d, hd⟩ := (h.saved i hzero).resolve_left (by simp [hstate])
    exact hfree d hd
  refine h.advance rfl rfl rfl ?_ (.stay h rfl rfl ?_) (.picked i rfl (Or.inl rfl) ?_ ?_)
    ?_ ?_ ?_ ?_
  · intro j
    by_cases hj : j = i
    · exact Or.inr (Or.inr ⟨hj ▸ hlock, hj ▸ hrunning⟩)
    · exact Or.inl (by simp [Same, hj])
  · simp [Cpu.held, Pc.held, hpc]
  · simp
  · simpa using hcontext
  · intro j d hj _ hd
    cases hj
    exact hfree d hd
  all_goals
    intro j
    obtain rfl | hji := eq_or_ne j i
  · exact fun _ => Or.inl rfl
  · exact fun hj => Or.inr ⟨by simpa [hji] using hj, by simp [hnone]⟩
  · exact fun hj => absurd (by simpa using hj) hcontext
  · intro hj
    by_cases hunused : (m.slot j).state = .unused
    · exact Or.inl (by simpa [hji] using hunused)
    · exact Or.inr (Or.inr ⟨by simpa [hji] using hj, hunused, by simp [hnone]⟩)
  · simpa using h.resume j
  · simpa [hji] using h.resume j

/-- The scheduler is about to switch to a process. -/
theorem Inv.picked (h : Inv m) (hpc : (m.cpu c).pc = .dispatch i ∨ (m.cpu c).pc = .load i) :
    (m.cpu c).proc = some i ∧ (m.slot i).state = .running ∧ (m.slot i).context ≠ none ∧
      ((m.cpu c).pc = .load i → (m.cpu c).context = some (.back i)) := by
  cases h.phase c with
  | picked j hproc hpc' hstate hcontext =>
    have hj : i = j := by
      rcases hpc with hpc | hpc <;> rcases hpc' with hpc' | ⟨hpc', -⟩ <;>
        simp [hpc] at hpc' <;> exact hpc'
    subst hj
    refine ⟨hproc, hstate, hcontext, fun hload => ?_⟩
    rcases hpc' with hpc' | ⟨-, hback⟩
    · simp [hload] at hpc'
    · exact hback
  | idle _ hidle => rcases hpc with hpc | hpc <;> rw [hpc] at hidle <;> exact hidle.elim
  | active p _ hof | leaving p _ hof =>
    rcases hpc with hpc | hpc <;> rw [hpc] at hof <;> exact hof.elim
  | saved p _ hpc' | back p _ hpc' => rcases hpc with hpc | hpc <;> simp [hpc] at hpc'

/-- The save of the scheduler's context. -/
theorem Inv.dispatches (h : Inv m) (hpc : (m.cpu c).pc = .dispatch i) :
    Inv (m.setCpu c { m.cpu c with context := some (.back i), pc := .load i }) := by
  obtain ⟨hproc, hstate, hcontext, -⟩ := h.picked (Or.inl hpc)
  refine h.local ⟨rfl, rfl, rfl, fun j => Or.inl (quiet_refl j), .stay h rfl rfl ?_, rfl⟩
    (.picked i hproc (Or.inr ⟨rfl, rfl⟩) hstate hcontext)
  simp [Cpu.held, Pc.held, hpc]

/-- The load of a process's context. -/
theorem Inv.loads (h : Inv m) (hpc : (m.cpu c).pc = .load i) (hk : (m.slot i).context = some pc) :
    Inv ((m.setSlot i { m.slot i with context := none }).goto c pc) := by
  obtain ⟨hproc, hstate, -, hback⟩ := h.picked (Or.inr hpc)
  obtain ⟨hresumes, hof⟩ := h.resume i pc hk
  refine h.local ⟨rfl, rfl, rfl, Inv.own_set hproc (fun j _ => quiet_refl j) nofun,
    .stay h rfl rfl ?_, rfl⟩ (.active i hproc hof (Pc.stay_of_resumes hresumes) ?_ ?_ (hback hpc)
      ?_ ?_)
  · simp [Cpu.held, hpc, hproc, Pc.held_of_resumes hresumes hof]
    rfl
  · simpa using hstate
  · simp
  · exact fun np hnp => by simp [Pc.setup_of_resumes hresumes] at hnp
  · exact fun np hnp => by simpa [Pc.setup_of_resumes hresumes] using Pc.setup_of_copying hnp

/-- The scheduler has come back from a process. -/
theorem Inv.backs (h : Inv m) (hpc : (m.cpu c).pc = .back i) :
    Inv (m.setCpu c { m.cpu c with proc := none, pc := .drop i }) := by
  obtain ⟨hproc, hstate, hcontext⟩ : (m.cpu c).proc = some i ∧ (m.slot i).state ≠ .running ∧
      (m.slot i).context ≠ none := by
    cases h.phase c with
    | back j hproc hpc' hstate _ hcontext =>
      obtain rfl : i = j := by simpa [hpc] using hpc'
      exact ⟨hproc, hstate, hcontext⟩
    | idle _ hidle => rw [hpc] at hidle; exact hidle.elim
    | active p _ hof | leaving p _ hof => rw [hpc] at hof; exact hof.elim
    | saved p _ hpc' => simp [hpc] at hpc'
    | picked j _ hpc' => simp [hpc] at hpc'
  have hne : ∀ j, j ≠ i → (m.cpu c).proc ≠ some j := by
    intro j hj
    rw [hproc]
    exact fun heq => hj (Option.some.inj heq).symm
  refine h.advance rfl rfl rfl (fun j => Or.inl ⟨rfl, rfl⟩) (.stay h rfl rfl ?_)
    (.idle rfl trivial) nofun ?_ ?_ h.resume
  · simp [Cpu.held, Pc.held, hpc]
  · exact fun j hj => Or.inr ⟨hj, hne j fun heq => hstate (heq ▸ hj)⟩
  · intro j hj
    by_cases hunused : (m.slot j).state = .unused
    · exact Or.inl hunused
    · exact Or.inr (Or.inr ⟨hj, hunused, hne j fun heq => hcontext (heq ▸ hj)⟩)

/-- `sched` is about to leave a process. -/
theorem Inv.leaving (h : Inv m) (hpc : (m.cpu c).pc = pc) (hleave : pc.leaving = true) :
    ∃ p, (m.cpu c).proc = some p ∧ pc.Of p ∧ (m.slot p).state ≠ .running ∧
      (m.slot p).state ≠ .unused ∧ (m.slot p).context = none ∧
      (m.cpu c).context = some (.back p) := by
  subst hpc
  cases h.phase c with
  | leaving p hproc hof _ hstate hused hcontext hback =>
    exact ⟨p, hproc, hof, hstate, hused, hcontext, hback⟩
  | active p _ _ hstay => simp [hleave] at hstay
  | idle _ hidle =>
    obtain ⟨b, hpc⟩ | ⟨p, q, hpc⟩ := Pc.leaving_cases hleave <;> rw [hpc] at hidle <;>
      exact hidle.elim
  | picked i _ hpc => rcases hpc with hpc | ⟨hpc, -⟩ <;> simp [hpc, Pc.leaving] at hleave
  | saved p _ hpc | back p _ hpc => simp [hpc, Pc.leaving] at hleave

/-- `exit` releases the lock of its parent. -/
theorem Inv.exitReleases {p q : Nat} (h : Inv m) (hpc : (m.cpu c).pc = .exitRelease p q)
    (hstep : m.release c (.proc q) (.sched .zombie) = some m') : Inv m' := by
  obtain ⟨p', hproc, rfl, hstate, hused, hcontext, hback⟩ := h.leaving hpc rfl
  have hlock : m.lock (.proc q) = some c := h.lock_of_held (by simp [Cpu.held, Pc.held, hpc])
  obtain rfl := release_eq hstep hlock
  refine h.local ⟨rfl, rfl, rfl, fun j => Or.inl (quiet_refl j), .release h hlock rfl rfl ?_, rfl⟩
    (.leaving p hproc ⟨rfl, trivial⟩ rfl hstate hused hcontext hback)
  simp [Cpu.held, Pc.held, hpc, hproc, Lock.add]

/-- `sched` saves the context of the process. -/
theorem Inv.saves {b : Pc} (h : Inv m) (hpc : (m.cpu c).pc = .sched b)
    (hstep : Sched.sched m c b = some m') : Inv m' := by
  obtain ⟨p, hproc, hof, hstate, hused, hcontext, hback⟩ := h.leaving hpc rfl
  rw [Sched.sched, hproc] at hstep
  dsimp only at hstep
  split at hstep
  · cases hstep
    exact h.panic (by decide)
  split at hstep
  · cases hstep
    exact h.panic (by decide)
  cases hstep
  refine h.local ⟨rfl, rfl, rfl, Inv.own_set hproc (fun j _ => quiet_refl j) fun k hk => ?_,
    .stay h rfl rfl ?_, rfl⟩ (.saved p hproc rfl ?_ ?_ ?_ hback)
  · cases hk
    exact hof
  · simp [Cpu.held, Pc.held, hpc]
  · simpa using hstate
  · simpa using hused
  · simp

/-- `sched` has saved the context of its process. -/
theorem Inv.swtch (h : Inv m) (hpc : (m.cpu c).pc = .swtch) :
    ∃ p, (m.cpu c).proc = some p ∧ (m.slot p).state ≠ .running ∧ (m.slot p).state ≠ .unused ∧
      (m.slot p).context ≠ none ∧ (m.cpu c).context = some (.back p) := by
  cases h.phase c with
  | saved p hproc _ hstate hused hcontext hback =>
    exact ⟨p, hproc, hstate, hused, hcontext, hback⟩
  | idle _ hidle => rw [hpc] at hidle; exact hidle.elim
  | active p _ hof | leaving p _ hof => rw [hpc] at hof; exact hof.elim
  | picked j _ hpc' => simp [hpc] at hpc'
  | back p _ hpc' => simp [hpc] at hpc'

/-- The load of the scheduler's context. -/
theorem Inv.switches (h : Inv m) (hpc : (m.cpu c).pc = .swtch) (hk : (m.cpu c).context = some pc) :
    Inv (m.setCpu c { m.cpu c with context := none, pc := pc }) := by
  obtain ⟨p, hproc, hstate, hused, hcontext, hback⟩ := h.swtch hpc
  cases hback.symm.trans hk
  refine h.local ⟨rfl, rfl, rfl, fun j => Or.inl (quiet_refl j), .stay h rfl rfl ?_, rfl⟩
    (.back p hproc rfl hstate hused hcontext)
  simp [Cpu.held, Pc.held, hpc, hproc]

/-- Code on a kernel stack, or `scheduler` without a process, returns to a free place. -/
theorem Inv.back_free {b : Pc} (h : Inv m) (hpc : (m.cpu c).pc = pc)
    (hswitch : pc.switching = false)
    (hidle : pc.Idle → b.free = true) (hof : ∀ p, pc.Of p → b.free = true) : b.free = true := by
  rcases h.active_or_idle (hpc ▸ hswitch) with ⟨-, hi⟩ | ⟨p, ha⟩
  · exact hidle (hpc ▸ hi)
  · exact hof p (hpc ▸ ha.of)

/-- `exit` under its two locks. -/
theorem Inv.exitZombies {p q : Nat} {status : Int} (h : Inv m)
    (hpc : (m.cpu c).pc = .exitZombie p status q)
    (hstep : Sched.exitZombie m c p status q = some m') : Inv m' := by
  obtain ⟨p, ha, rfl⟩ := h.active hpc rfl id
  have hq : m.lock (.proc q) = some c := h.lock_of_held (by simp [Cpu.held, Pc.held, hpc])
  have hpq : p ≠ q := by
    have := h.distinct c
    simp only [Cpu.held, Pc.held, hpc] at this
    simpa using this
  unfold Sched.exitZombie at hstep
  rw [if_neg (not_not_intro hq)] at hstep
  cases hstep
  refine h.leaves ha
    (fun i _ => h.quiet_wake hq (Slot.state_wakeup1 _ q) (Slot.context_wakeup1 ..) i)
    (by simp) (by simp) (by simp [hpq]) rfl rfl ?_
  simpa [Cpu.held, Pc.held, hpc] using List.Perm.swap p q []

/-- The step lemma for the code of `proc.c`. -/
theorem Inv.run (h : Inv m) (hstep : Sched.run m c = some m') : Inv m' := by
  unfold Sched.run at hstep
  cases hpc : (m.cpu c).pc <;> simp only [hpc] at hstep
  case scan | kill | fork =>
    split at hstep
    · exact h.acquires hpc hstep
    · cases hstep
      exact h.moves hpc
  case test =>
    split at hstep
    next hstate =>
      cases hstep
      exact h.picks hpc hstate
    next =>
      cases hstep
      exact h.moves hpc
  case dispatch =>
    cases hstep
    exact h.dispatches hpc
  case load =>
    obtain ⟨k, hk, rfl⟩ := Option.map_eq_some_iff.mp hstep
    exact h.loads hpc hk
  case back =>
    cases hstep
    exact h.backs hpc
  case drop | sleepRelease | waitRelease => exact h.releases hpc hstep
  case wakeup ch i b =>
    have hfree : b.free = true := h.back_free hpc rfl (fun hi => hi.1) fun _ ho => ho.1
    split at hstep
    · exact h.acquires hpc hstep
    · cases hstep
      refine h.moves hpc (.free hfree rfl (fun _ hi => hi.2) fun _ _ ho => ho.2) ?_
      rw [Pc.held_of_free hfree]
      exact .refl _
  case wakeupSet ch i b =>
    have hlock : m.lock (.proc i) = some c := h.lock_of_held (by simp [Cpu.held, Pc.held, hpc])
    exact h.sets hpc hstep (.head _)
      (h.quiet_wake hlock (Slot.state_wakeup _ _) (Slot.context_wakeup _ _))
  case yield =>
    unfold Machine.acquireSelf at hstep
    split at hstep
    next => cases hstep
    next p hp =>
      exact h.acquires hpc hstep { of := fun q hq ho => ⟨Option.some.inj (hp.symm.trans hq), ho⟩ }
  case yieldSet p b =>
    cases hstep
    obtain ⟨q, ha, ho⟩ := h.active hpc rfl id
    obtain rfl : p = q := ho.1
    refine h.leaves ha (fun i _ => quiet_refl i) (by simp) (by simp) rfl ⟨rfl, ho⟩ rfl ?_
    simp [Cpu.held, Pc.held, hpc, ha.proc]
  case yieldBack p b =>
    have hfree : b.free = true := h.back_free hpc rfl (fun hi => hi.elim) fun _ ho => ho.2.1
    refine h.releases hpc hstep (.free hfree rfl (fun _ hi => hi.elim) fun _ _ ho => ho.2.2) ?_
    rw [Pc.held_of_free hfree]
    exact .refl _
  case sleep =>
    unfold Machine.acquireSelf at hstep
    split at hstep
    next => cases hstep
    next p hp =>
      exact h.acquires hpc hstep { of := fun q hq _ => Option.some.inj (hp.symm.trans hq) }
  case sleepSet | waitSleep =>
    cases hstep
    obtain ⟨q, ha, rfl⟩ := h.active hpc rfl id
    refine h.leaves ha (fun i _ => quiet_refl i) (by simp [Slot.sleep]) (by simp [Slot.sleep]) rfl
      ⟨rfl, rfl⟩ rfl ?_
    simp [Cpu.held, Pc.held, hpc, ha.proc]
  case sleepBack | reparentSet =>
    exact h.sets hpc hstep (.head _) (quiet_set (Or.inl ⟨rfl, rfl⟩))
  case sched => exact h.saves hpc hstep
  case swtch =>
    obtain ⟨k, hk, rfl⟩ := Option.map_eq_some_iff.mp hstep
    exact h.switches hpc hk
  case killSet pid i =>
    have hlock : m.lock (.proc i) = some c := h.lock_of_held (by simp [Cpu.held, Pc.held, hpc])
    split at hstep
    · exact h.sets hpc hstep (.head _) (h.quiet_wake hlock (Slot.state_kill _) rfl)
    · exact h.releases hpc hstep
  case forkTest p i =>
    split at hstep
    next hunused =>
      cases hstep
      have hpid : ∀ {pid}, Inv { m with nextpid := pid } := h.congr rfl rfl rfl rfl h.calm
      refine hpid.gotos hpc (quiet_set (Or.inl ⟨rfl, rfl⟩)) { setup := fun np hnp => ?_ }
      obtain rfl : i = np := by simpa [Pc.setup] using hnp
      simpa using hunused
    next => exact h.releases hpc hstep
  case forkret =>
    split at hstep
    next => cases hstep
    next p hp => exact h.releases hpc hstep {} (by rw [hp]; exact .refl _)
  case exitWake =>
    have hlock : m.lock (.proc m.initproc) = some c :=
      h.lock_of_held (by simp [Cpu.held, Pc.held, hpc])
    exact h.sets hpc hstep (.head _)
      (h.quiet_wake hlock (Slot.state_wakeup1 _ _) (Slot.context_wakeup1 _ _))
  case exitParent =>
    split at hstep
    · cases hstep
    · exact h.releases hpc hstep
  case sleepAcquire | exitInit | exitSelf | exitLockParent | exitLockSelf | reparentLock | waitLock
      | waitChild =>
    exact h.acquires hpc hstep
  case reparent =>
    split at hstep
    · split at hstep <;> cases hstep <;> exact h.moves hpc
    · cases hstep
      exact h.moves hpc
  case exitZombie => exact h.exitZombies hpc hstep
  case exitRelease => exact h.exitReleases hpc hstep
  case zombie =>
    cases hstep
    exact h.panic (by decide)
  case waitScan =>
    split at hstep
    · split at hstep <;> cases hstep <;> exact h.moves hpc
    · split at hstep
      · exact h.releases hpc hstep
      · cases hstep
        exact h.moves hpc
  case waitBack =>
    cases hstep
    exact h.gotos hpc (quiet_set (Or.inl ⟨rfl, rfl⟩))
  all_goals cases hstep

/-! ## The other moves -/

/-- A `fork` has found its slot free. -/
theorem Inv.setup (h : Inv m) {np : Nat} (hpc : (m.cpu c).pc = pc) (hsetup : pc.setup np = true) :
    (m.slot np).state = .unused ∧ (pc.copying np = true → (m.slot np).context ≠ none) := by
  have hswitch : (m.cpu c).pc.switching = false := by
    rw [hpc]
    cases pc <;> first | rfl | cases hsetup
  cases h.phase c with
  | active p _ _ _ _ _ _ hunused hcopy => exact ⟨hunused np (hpc ▸ hsetup), hpc ▸ hcopy np⟩
  | idle _ hidle =>
    rw [hpc] at hidle
    cases pc <;> first | cases hsetup | exact hidle.elim
  | picked i _ hpc' =>
    rcases hpc' with hpc' | ⟨hpc', -⟩ <;> simp [hpc', Pc.switching] at hswitch
  | leaving p _ _ hleave =>
    obtain ⟨b, hpc'⟩ | ⟨p, q, hpc'⟩ := Pc.leaving_cases hleave <;>
      simp [hpc', Pc.switching] at hswitch
  | saved p _ hpc' | back p _ hpc' => simp [hpc', Pc.switching] at hswitch

/-- A scheduler with no lock of a process. -/
theorem Pc.free_of_idle {init : Nat} {proc : Option Nat} (hidle : pc.Idle)
    (hheld : pc.held init proc = []) : pc.free = true := by
  cases pc <;> simp [Pc.Idle, Pc.held, Pc.free] at *

/-- A process with no lock of a process. -/
theorem Pc.free_of_of {init p : Nat} (hof : pc.Of p) (hheld : pc.held init (some p) = []) :
    pc.free = true := by
  cases pc <;> simp [Pc.Of, Pc.held, Pc.free] at *

/-- With no lock held, the CPU is at a place that can be interrupted. -/
theorem Inv.free (h : Inv m) (hlocks : (m.cpu c).locks = []) : (m.cpu c).pc.free = true := by
  have hheld : (m.cpu c).held m.initproc = [] := by
    refine List.eq_nil_iff_forall_not_mem.mpr fun i hi => ?_
    have := (h.held c i).mpr hi
    simp [hlocks] at this
  cases hproc : (m.cpu c).proc with
  | none =>
    cases h.phase c with
    | idle _ hidle => exact Pc.free_of_idle hidle hheld
    | picked i hi | active i hi | leaving i hi | saved i hi | back i hi => simp [hproc] at hi
  | some p =>
    rcases h.locked_or_running hproc with hlock | ⟨-, hof, -⟩
    · have := (h.lock _ _).mp hlock
      simp [hlocks] at this
    · rw [Cpu.held, hproc] at hheld
      exact Pc.free_of_of hof hheld

/-- `allocproc` in the slot it has found. -/
theorem Inv.allocs {p np : Nat} {outcome : Alloc} (h : Inv m) (hpc : (m.cpu c).pc = .forkAlloc p np)
    (hstep : Sched.forkAlloc m c p np outcome = some m') : Inv m' := by
  have hlock : m.lock (.proc np) = some c := h.lock_of_held (by simp [Cpu.held, Pc.held, hpc])
  have hunused := (h.setup hpc (by simp [Pc.setup] : (Pc.forkAlloc p np).setup np = true)).1
  have hidle : (m.slot np).state ≠ .running := by simp [hunused]
  cases outcome with
  | noTrapframe => exact h.releases hpc hstep (.user rfl id) (.refl _)
  | noPagetable =>
    exact h.sets hpc hstep (.head _) (quiet_set (Or.inr (h.touch_free hlock hidle)))
      (.user rfl id) (.refl _)
  | done =>
    cases hstep
    refine h.gotos hpc (quiet_set (Or.inr ⟨hlock, hidle, hidle, nofun, fun k hk => ?_⟩))
      ⟨rfl, rfl, fun _ => id, fun _ _ => id, fun j hj => ?_, fun j hj => ?_⟩ (.refl _)
    · cases hk
      exact ⟨rfl, trivial⟩
    · obtain rfl : np = j := by simpa [Pc.setup] using hj
      simpa using hunused
    · obtain rfl : np = j := by simpa [Pc.copying] using hj
      simp

/-- `fork` after `allocproc`. -/
theorem Inv.copies {p np : Nat} {ok : Bool} (h : Inv m) (hpc : (m.cpu c).pc = .forkCopy p np)
    (hstep : Sched.forkCopy m c p np ok = some m') : Inv m' := by
  have hlock : m.lock (.proc np) = some c := h.lock_of_held (by simp [Cpu.held, Pc.held, hpc])
  obtain ⟨hunused, hcontext⟩ :=
    h.setup hpc (by simp [Pc.setup] : (Pc.forkCopy p np).setup np = true)
  have hidle : (m.slot np).state ≠ .running := by simp [hunused]
  unfold Sched.forkCopy at hstep
  split at hstep
  · have h₀ : Inv { m with born := m.born + 1 } := h.congr rfl rfl rfl rfl h.calm
    refine h₀.sets hpc hstep (.head _) (quiet_set (Or.inr ⟨hlock, hidle, by simp, ?_, h.resume np⟩))
      (.user rfl id) (.refl _)
    exact fun hnone => absurd hnone (hcontext (by simp [Pc.copying]))
  · exact h.sets hpc hstep (.head _) (quiet_set (Or.inr (h.touch_free hlock hidle)))
      (.user rfl id) (.refl _)

/-- `wait` with the lock of a child. -/
theorem Inv.waits {p addr : Nat} {ok : Bool} (h : Inv m) (hpc : (m.cpu c).pc = .waitTest p addr i)
    (hstep : Sched.waitTest m c p addr i ok = some m') : Inv m' := by
  have hlock : m.lock (.proc i) = some c := h.lock_of_held (by simp [Cpu.held, Pc.held, hpc])
  unfold Sched.waitTest at hstep
  dsimp only at hstep
  split at hstep
  next hzombie =>
    split at hstep
    · exact h.releases hpc hstep
    · generalize m.reaps ++ _ = reaps at hstep
      have h₀ : Inv { m with reaps := reaps } := h.congr rfl rfl rfl rfl h.calm
      refine h₀.sets hpc hstep (.head _) (quiet_set (Or.inr (h₀.touch_free hlock ?_)))
      simp [hzombie]
  next => exact h.releases hpc hstep

/-- A system call begins. -/
theorem syscall_cases {call : Nat → Option Machine} (hstep : syscall m c call = some m') :
    (m.cpu c).pc = .user ∧ (m.cpu c).locks = [] ∧
      ∃ p, (m.cpu c).proc = some p ∧ call p = some m' := by
  unfold syscall at hstep
  split at hstep
  next hpc =>
    split at hstep
    next hlocks =>
      obtain ⟨p, hp, hcall⟩ := Option.bind_eq_some_iff.mp hstep
      exact ⟨hpc, hlocks, p, hp, hcall⟩
    next => cases hstep
  next => cases hstep

/-- The places of interruptible code. -/
theorem handler_cases (hpc : pc.handler = true) : pc = .user ∨ ∃ b, pc = .intr b := by
  cases pc <;> simp [Pc.handler] at hpc ⊢

/-- Code that handles devices goes on. -/
theorem Goes.handler {slot : Nat → Slot} (hpc : pc.handler = true) : Goes m c slot pc pc := by
  rcases handler_cases hpc with rfl | ⟨b, rfl⟩ <;>
    exact ⟨rfl, rfl, fun _ => id, fun _ _ => id, nofun, nofun⟩

/-- An interrupt begins. -/
theorem Inv.interrupts (h : Inv m) (hlocks : (m.cpu c).locks = []) (hheld : ∀ init proc,
      pc.held init proc = []) (hg : (m.cpu c).pc.free = true → Goes m c m.slot (m.cpu c).pc pc) :
    Inv (m.goto c pc) := by
  have hfree := h.free hlocks
  refine h.moves rfl (hg hfree) ?_
  rw [Pc.held_of_free hfree, hheld]

/-- The step lemma for all moves of a CPU. -/
theorem Inv.move {a : Move} (h : Inv m) (hstep : Sched.move m c a = some m') : Inv m' := by
  cases a with
  | run => exact h.run hstep
  | alloc outcome =>
    simp only [Sched.move] at hstep
    split at hstep
    next p np hpc => exact h.allocs hpc hstep
    next => cases hstep
  | copy ok =>
    simp only [Sched.move] at hstep
    split at hstep
    next p np hpc => exact h.copies hpc hstep
    next p addr i hpc => exact h.waits hpc hstep
    next => cases hstep
  | acquire k =>
    simp only [Sched.move] at hstep
    split at hstep
    next hhandler => exact h.acquires rfl hstep (.handler hhandler)
    next => cases hstep
  | release k =>
    simp only [Sched.move] at hstep
    split at hstep
    next hhandler => exact h.releases rfl hstep (.handler hhandler)
    next => cases hstep
  | wakeup ch =>
    simp only [Sched.move] at hstep
    split at hstep
    next hhandler =>
      cases hstep
      rcases handler_cases hhandler with hpc | ⟨b, hpc⟩ <;> rw [hpc] <;>
        exact h.moves hpc { idle := fun _ hi => ⟨rfl, hi⟩, of := fun _ _ ho => ⟨rfl, ho⟩ }
    next => cases hstep
  | sleep a k =>
    simp only [Sched.move] at hstep
    split at hstep
    next hpc =>
      cases hstep
      exact h.moves hpc.1
    next => cases hstep
  | intr =>
    simp only [Sched.move] at hstep
    split at hstep
    next hlocks =>
      cases hstep
      exact h.interrupts hlocks (fun _ _ => rfl) fun hfree =>
        { hold := Pc.switching_of_free hfree, idle := fun _ hi => ⟨hfree, hi⟩,
          of := fun _ _ ho => ⟨hfree, ho⟩ }
    next => cases hstep
  | timer =>
    simp only [Sched.move] at hstep
    split at hstep
    next hcond =>
      cases hstep
      exact h.interrupts hcond.1 (fun _ _ => rfl) fun hfree =>
        { hold := Pc.switching_of_free hfree, idle := fun hnone => absurd hnone hcond.2,
          of := fun _ _ ho => ⟨hfree, ho⟩ }
    next => cases hstep
  | iret =>
    simp only [Sched.move] at hstep
    split at hstep
    next b hpc =>
      split at hstep <;> cases hstep
      have hfree : b.free = true := h.back_free hpc rfl (fun hi => hi.1) fun _ ho => ho.1
      refine h.moves hpc (.free hfree rfl (fun _ hi => hi.2) fun _ _ ho => ho.2) ?_
      rw [Pc.held_of_free hfree]
      exact .refl _
    next => cases hstep
  | kill pid =>
    obtain ⟨hpc, -, p, -, hcall⟩ := syscall_cases hstep
    cases hcall
    exact h.moves hpc
  | fork | wait =>
    obtain ⟨hpc, -, p, hp, hcall⟩ := syscall_cases hstep
    cases hcall
    exact h.moves hpc { of := fun q hq _ => Option.some.inj (hp.symm.trans hq) }
  | exit status =>
    obtain ⟨hpc, -, p, hp, hcall⟩ := syscall_cases hstep
    cases hcall
    unfold Sched.exit
    split
    · exact h.panic (by decide)
    · have h₀ : ∀ exits, Inv { m with exits := exits } := fun _ => h.congr rfl rfl rfl rfl h.calm
      exact (h₀ _).moves hpc { of := fun q hq _ => Option.some.inj (hp.symm.trans hq) }

/-- The step lemma. -/
theorem Inv.step {a : Act} (h : Inv m) (hstep : Sched.step m a = some m') : Inv m' := by
  obtain ⟨-, hstep⟩ := Option.ite_none_right_eq_some.mp hstep
  exact h.move hstep

/-- The invariant holds at boot. -/
theorem inv_boot : Inv boot where
  lock l c := by simp [boot]
  nodup c := by simp [boot]
  held c i := by simp [boot, Cpu.held, Pc.held]
  distinct c := by simp [boot, Cpu.held, Pc.held]
  phase c := .idle rfl trivial
  one c d i h := by simp [boot] at h
  running i h := by
    by_cases hi : i = 0 <;> simp [boot, hi, Slot.zero] at h
  saved i h := by
    by_cases hi : i = 0
    · simp [boot, hi] at h
    · exact Or.inl (by simp [boot, hi, Slot.zero])
  resume i pc h := by
    obtain rfl | hi := eq_or_ne i 0
    · obtain rfl : Pc.forkret = pc := by simpa [boot] using h
      exact ⟨rfl, trivial⟩
    · simp [boot, hi, Slot.zero] at h
  calm := by simp [boot]

end Run

/-! ## The result -/

/-- The next step of CPU `c` can apply `freeproc` to slot `i`. -/
def Frees (m : Machine) (c i : Nat) : Prop :=
  (∃ p addr, (m.cpu c).pc = .waitTest p addr i ∧ (m.slot i).state = .zombie) ∨
    (∃ p, (m.cpu c).pc = .forkAlloc p i) ∨ ∃ p, (m.cpu c).pc = .forkCopy p i

/-- What the locks of the process table achieve. -/
structure OneCpu (m : Machine) : Prop where
  running : ∀ p, m.lock (.proc p) = none →
    ((m.slot p).state = .running ↔ ∃! c, (m.cpu c).proc = some p)
  distinct : ∀ c d p, (m.cpu c).proc = some p → (m.cpu d).proc = some p → c = d
  load : ∀ c i, (m.cpu c).pc = .load i → (m.slot i).context ≠ none
  swtch : ∀ c, (m.cpu c).pc = .swtch → (m.cpu c).context ≠ none
  frees : ∀ c i, Frees m c i → ∀ d, (m.cpu d).proc ≠ some i
  sched : m.panicked ≠ some "sched running"

/-- A slot that is freed is on no CPU. -/
theorem Inv.frees {m : Machine} {c i d : Nat} (h : Inv m) (hfree : Frees m c i) :
    (m.cpu d).proc ≠ some i := by
  intro hd
  rcases hfree with ⟨p, addr, hpc, hzombie⟩ | hfork
  · have hlock : m.lock (.proc i) = some c := h.lock_of_held (by simp [Cpu.held, Pc.held, hpc])
    obtain rfl := h.alone hlock (by simp [hzombie]) hd
    -- the caller of `wait` is not its own child
    obtain ⟨q, ha, rfl⟩ := h.active hpc rfl id
    cases ha.proc.symm.trans hd
    simp [ha.state] at hzombie
  · refine h.used hd ?_
    rcases hfork with ⟨p, hpc⟩ | ⟨p, hpc⟩
    · exact (h.setup hpc (by simp [Pc.setup])).1
    · exact (h.setup hpc (by simp [Pc.setup])).1

/-- What the invariant says of two CPUs. -/
theorem Inv.oneCpu {m : Machine} (h : Inv m) : OneCpu m where
  running p hfree := by
    constructor
    · intro hrun
      obtain ⟨c, hc⟩ := h.running p hrun
      exact ⟨c, hc, fun d hd => h.one d c p hd hc⟩
    · rintro ⟨c, hc, -⟩
      rcases h.locked_or_running hc with hlock | ⟨hrun, -, -⟩
      · simp [hfree] at hlock
      · exact hrun
  distinct := h.one
  load c i hpc := (h.picked (Or.inr hpc)).2.2.1
  swtch c hpc := by
    obtain ⟨p, -, -, -, -, hback⟩ := h.swtch hpc
    simp [hback]
  frees c i hfree d := h.frees hfree
  sched := h.calm

/-- Only the first `n` CPUs exist. -/
def Cpus (n : Nat) (_ : Machine) (a : Act) : Prop := a.cpu < n

/-- A process runs on at most one CPU.  For every number of CPUs and every interleaving
of their steps: a process whose lock is free is running exactly if it is the `proc` of
exactly one CPU, no two CPUs have the same `proc`, a context is loaded only after it has
been saved or set up, a slot is freed only while no CPU has it, and the check of `sched`
for a running process does not fail. -/
theorem runs_on_one_cpu {n : Nat} {m : Machine} (hrun : Run step (Cpus n) boot m) : OneCpu m :=
  (hrun.invariant inv_boot fun _ _ _ h _ hstep => h.step hstep).oneCpu

/-- CPU 0 dispatches the first process, which forks, and CPU 1 dispatches the child. -/
theorem runs_on_one_cpu_fork : ∃ m, Run step (Cpus 2) boot m ∧
    (m.cpu 0).proc = some 0 ∧ (m.slot 0).state = .running ∧
    (m.cpu 1).proc = some 1 ∧ (m.slot 1).state = .running ∧ OneCpu m := by
  have hexec : (exec step (fun _ a => a.cpu < 2) boot
      (List.replicate 5 ⟨0, .run⟩ ++ ⟨0, .fork⟩ :: List.replicate 4 ⟨0, .run⟩ ++
        [⟨0, .alloc .done⟩, ⟨0, .copy true⟩] ++ List.replicate 8 ⟨1, .run⟩)).map
      (fun m => ((m.cpu 0).proc, (m.slot 0).state, (m.cpu 1).proc, (m.slot 1).state)) =
      some (some 0, .running, some 1, .running) := by
    decide +kernel
  obtain ⟨m, hrun, hm⟩ := exec_reaches hexec
  simp only [Prod.mk.injEq] at hm
  exact ⟨m, hrun, hm.1, hm.2.1, hm.2.2.1, hm.2.2.2, runs_on_one_cpu hrun⟩

end Sched
end Xv6
