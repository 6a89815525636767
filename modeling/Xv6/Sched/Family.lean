import Mathlib.Tactic
import Xv6.Sched.Wakeup

/-!
# Parents, exits and waits

A process hands its children to `initproc` before it becomes a zombie, and only its
parent frees it.  `exit` and `wait` read parent fields without the locks of the children;
what makes this sound is recorded at each place of their code.

Main results:

- Theorem {lit}`Kin.move`: the family invariant is kept by every step.
- Theorem {lit}`family_tree`: parents are alive, and every exited child is reaped once,
  by its parent and with its status.
- Theorem {lit}`waits_for_children`: a process that sleeps in `wait` has no zombie child.
-/

namespace Xv6
namespace Sched

open Lib Machine

/-! ## Definitions -/

/-- Slot `i` is in use and its process has not ended. -/
def Alive (m : Machine) (i : Nat) : Prop :=
  (m.slot i).state ≠ .unused ∧ (m.slot i).state ≠ .zombie

/-- Process `p` is in `exit(status)`. -/
def Exits (m : Machine) (p : Nat) (status : Int) : Prop :=
  p ≠ m.initproc ∧ ((m.slot p).uid, status) ∈ m.exits

/-- Process `p` has not called `exit`. -/
def Fresh (m : Machine) (p : Nat) : Prop :=
  (m.slot p).uid ∉ m.exits.map Prod.fst

/-- `q` was the parent of `p` when `exit` read it; `initproc` may have adopted `p` since. -/
def Parent (m : Machine) (p q : Nat) : Prop :=
  (m.slot p).parent = some q ∨ (m.slot p).parent = some m.initproc

/-- The first `n` slots hold no child of `p`. -/
def NoChild (m : Machine) (p n : Nat) : Prop :=
  ∀ i, i < n → (m.slot i).parent ≠ some p

/-- The first `n` slots hold no zombie child of `p`.  `initproc` may have adopted one. -/
def NoZombie (m : Machine) (p n : Nat) : Prop :=
  p ≠ m.initproc → ∀ i, i < n → (m.slot i).parent = some p → (m.slot i).state ≠ .zombie

/-- What holds at a place of the code of process `p`. -/
def Place (m : Machine) (p : Nat) : Pc → Prop
  | .intr b | .wakeup _ _ b | .wakeupSet _ _ b | .yield b | .yieldSet _ b | .yieldBack _ b
  | .sched b => Place m p b
  | .exitInit _ status | .exitWake _ status | .exitSelf _ status | .exitParent _ status =>
    Exits m p status
  | .exitLockParent _ status q | .exitLockSelf _ status q => Exits m p status ∧ Parent m p q
  | .reparent _ status q n => Exits m p status ∧ Parent m p q ∧ NoChild m p n
  | .reparentLock _ status q i | .reparentSet _ status q i =>
    Exits m p status ∧ Parent m p q ∧ NoChild m p i ∧ (m.slot i).parent = some p
  | .exitZombie _ status q => Exits m p status ∧ Parent m p q ∧ NoChild m p nproc
  | .exitRelease _ _ | .zombie => True
  | .forkTest _ i | .forkAlloc _ i | .forkCopy _ i => Fresh m p ∧ i < nproc
  | .waitScan _ _ n _ => Fresh m p ∧ NoZombie m p n
  | .waitChild _ _ i | .waitTest _ _ i =>
    Fresh m p ∧ NoZombie m p i ∧ (m.slot i).parent = some p
  | .waitSleep _ _ => Fresh m p ∧ NoZombie m p nproc
  | .sleep ch _ | .sleepRelease _ ch _ | .sleepSet _ ch _ => Fresh m p ∧ ∃ a, ch = .addr a
  | _ => Fresh m p

/-- The family invariant. -/
structure Kin (m : Machine) : Prop where
  init : Alive m m.initproc
  /-- Parents are alive. -/
  alive : ∀ i q, (m.slot i).parent = some q → Alive m q
  parent : ∀ i, i ≠ m.initproc → (m.slot i).state ≠ .unused → (m.slot i).parent ≠ none
  orphan : ∀ i, (m.slot i).state = .unused → (m.slot i).parent = none
  range : ∀ i, (m.slot i).parent ≠ none → i < nproc
  place : ∀ p pc, (m.slot p).state ≠ .unused → Code m p pc → Place m p pc
  /-- A process that sleeps in `wait` has no zombie child. -/
  quiet : ∀ p, p ≠ m.initproc → Asleep m p (.proc p) → ∀ i, (m.slot i).parent = some p →
    (m.slot i).state ≠ .zombie
  /-- A zombie keeps the status that it has passed to `exit`. -/
  status : ∀ i, (m.slot i).state = .zombie → ((m.slot i).uid, (m.slot i).xstate) ∈ m.exits
  uids : ∀ i j, (m.slot i).state ≠ .unused → (m.slot j).state ≠ .unused →
    (m.slot i).uid = (m.slot j).uid → i = j
  old : ∀ i, (m.slot i).state ≠ .unused → (m.slot i).uid < m.born
  exitsOld : ∀ e ∈ m.exits, e.1 < m.born
  exitsOnce : (m.exits.map Prod.fst).Nodup
  reapsOld : ∀ r ∈ m.reaps, r.uid < m.born
  reapsOnce : (m.reaps.map Reap.uid).Nodup
  unreaped : ∀ i, (m.slot i).state ≠ .unused → (m.slot i).uid ∉ m.reaps.map Reap.uid
  reaps : ∀ r ∈ m.reaps, r.parent = some r.caller ∧
    (r.addr ≠ 0 → ∃ status, (r.uid, status) ∈ m.exits ∧ r.stored = some status)

/-! ## Changes of a slot that matter for families -/

/-- Slot `i` after a step of CPU `c`, as far as families are concerned. -/
inductive Turn (m : Machine) (c i : Nat) (x : Slot) : Prop where
  | kept (hparent : x.parent = (m.slot i).parent) (huid : x.uid = (m.slot i).uid)
      (hunused : x.state = .unused ↔ (m.slot i).state = .unused)
      (hzombie : x.state = .zombie ↔ (m.slot i).state = .zombie)
      (hstatus : (m.slot i).state = .zombie → x.xstate = (m.slot i).xstate)
  | born (p : Nat) (hpc : (m.cpu c).pc = .forkCopy p i) (hbefore : (m.slot i).state = .unused)
      (hparent : x.parent = some p) (huid : x.uid = m.born) (hstate : x.state = .runnable)
  | adopts (p : Nat) (status : Int) (q : Nat) (hpc : (m.cpu c).pc = .reparentSet p status q i)
      (hparent : x.parent = some m.initproc) (huid : x.uid = (m.slot i).uid)
      (hstate : x.state = (m.slot i).state) (hstatus : x.xstate = (m.slot i).xstate)
  | dies (status : Int) (q : Nat) (hpc : (m.cpu c).pc = .exitZombie i status q)
      (hparent : x.parent = (m.slot i).parent) (huid : x.uid = (m.slot i).uid)
      (hstate : x.state = .zombie) (hstatus : x.xstate = status)
  | reaped (p addr : Nat) (hpc : (m.cpu c).pc = .waitTest p addr i)
      (hbefore : (m.slot i).state = .zombie) (hparent : x.parent = none)
      (huid : x.uid = (m.slot i).uid) (hstate : x.state = .unused)

section Turn

variable {m m' : Machine} {c d i p : Nat} {pc : Pc} {a : Move} {x : Slot}

/-- A change of the state of a process that is in use and has not ended. -/
theorem Turn.of_state (hparent : x.parent = (m.slot i).parent) (huid : x.uid = (m.slot i).uid)
    (halive : Alive m i) (hx : x.state ≠ .unused ∧ x.state ≠ .zombie) : Turn m c i x :=
  .kept hparent huid ⟨fun h => absurd h hx.1, fun h => absurd h halive.1⟩
    ⟨fun h => absurd h hx.2, fun h => absurd h halive.2⟩ fun h => absurd h halive.2

/-- No change of the state. -/
theorem Turn.of_eq (hparent : x.parent = (m.slot i).parent) (huid : x.uid = (m.slot i).uid)
    (hstate : x.state = (m.slot i).state) (hstatus : x.xstate = (m.slot i).xstate) : Turn m c i x :=
  .kept hparent huid (by rw [hstate]) (by rw [hstate]) fun _ => hstatus

/-- A running process is alive. -/
theorem Active.alive (ha : Active m c p) : Alive m p :=
  ⟨by simp [ha.state], by simp [ha.state]⟩

/-- What a step can do to a slot. -/
theorem Inv.turn (h : Inv m) (hk : Kin m) (hstep : Sched.move m c a = some m') (i : Nat) :
    Turn m c i (m'.slot i) := by
  have hchange := (effect_move hstep).slots i
  generalize m'.slot i = x at hchange
  cases hchange with
  | same | loads | rises | saves | names | setup => exact .of_eq rfl rfl rfl rfl
  | wakes hstate => exact .of_state rfl rfl ⟨by simp [hstate], by simp [hstate]⟩ (by simp)
  | runs hpc hstate => exact .of_state rfl rfl ⟨by simp [hstate], by simp [hstate]⟩ (by simp)
  | kills =>
    rcases Slot.state_kill (m.slot i) with hsame | ⟨hsleep, hrun⟩
    · exact .of_eq rfl rfl hsame rfl
    · exact .of_state rfl rfl ⟨by simp [hsleep], by simp [hsleep]⟩ (by simp [hrun])
  | yields b hpc =>
    obtain ⟨q, ha, hof⟩ := h.active hpc rfl id
    obtain rfl : i = q := hof.1
    exact .of_state rfl rfl ha.alive (by simp)
  | sleeps ch k hpc =>
    obtain ⟨q, ha, rfl⟩ := h.active hpc rfl id
    exact .of_state rfl rfl ha.alive (by simp [Slot.sleep])
  | waits addr hpc =>
    obtain ⟨q, ha, rfl⟩ := h.active hpc rfl id
    exact .of_state rfl rfl ha.alive (by simp [Slot.sleep])
  | fails p hpc =>
    have hunused : (m.slot i).state = .unused := by
      rcases hpc with hpc | hpc <;> exact (h.setup hpc (by simp [Pc.setup])).1
    exact .kept (hk.orphan i hunused).symm rfl (by simp [Slot.freeproc, hunused])
      (by simp [Slot.freeproc, hunused]) (by simp [hunused])
  | born p hpc => exact .born p hpc (h.setup hpc (by simp [Pc.setup])).1 rfl rfl rfl
  | adopts p status q hpc => exact .adopts p status q hpc rfl rfl rfl rfl
  | dies status q hpc => exact .dies status q hpc rfl rfl rfl rfl
  | reaped p addr hpc hstate => exact .reaped p addr hpc hstate rfl rfl rfl

end Turn

/-! ## Places keep their facts -/

namespace Pc

/-- The code is in the loop of `wait`. -/
def scanning : Pc → Bool
  | .waitScan _ _ _ _ | .waitChild _ _ _ | .waitTest _ _ _ | .waitSleep _ _ => true
  | .intr b | .wakeup _ _ b | .wakeupSet _ _ b | .yield b | .yieldSet _ b | .yieldBack _ b
  | .sched b => b.scanning
  | _ => false

/-- The loop of `wait` is not interrupted, and has the lock of its process. -/
theorem held_of_scanning {pc : Pc} {p : Nat} (init : Nat) (h : pc.scanning = true) (hof : pc.Of p) :
    p ∈ pc.held init (some p) ∧ pc.free = false ∧ pc.resumes = false := by
  induction pc with
  | waitScan q | waitSleep q | waitChild q | waitTest q =>
    obtain rfl : q = p := hof
    simp [held, free, resumes]
  | intr b ih | wakeup _ _ b ih | wakeupSet _ _ b ih | yield b ih =>
    obtain ⟨hfree, hof⟩ := hof
    simp [(ih h hof).2.1] at hfree
  | yieldSet _ b ih | yieldBack _ b ih =>
    obtain ⟨-, hfree, hof⟩ := hof
    simp [(ih h hof).2.1] at hfree
  | sched b ih =>
    obtain ⟨hresumes, hof⟩ := hof
    simp [(ih h hof).2.2] at hresumes
  | _ => cases h

end Pc

section Keeps

variable {m m' : Machine} {c d i p : Nat} {pc : Pc} {a : Move}

/-- The facts about process `p` that hold at places survive. -/
structure Keeps (m m' : Machine) (p : Nat) : Prop where
  exits : ∀ status, Exits m p status → Exits m' p status
  fresh : Fresh m p → Fresh m' p
  parent : ∀ q, Parent m p q → Parent m' p q
  noChild : ∀ n, p ≠ m.initproc → NoChild m p n → NoChild m' p n
  child : ∀ i, (m.slot i).parent = some p → (m'.slot i).parent = some p

/-- What is known at a place, after a step that keeps it. -/
theorem Place.mono (hk : Keeps m m' p) (hzombie : pc.scanning = true →
      ∀ n, NoZombie m p n → NoZombie m' p n) (hplace : Place m p pc) : Place m' p pc := by
  induction pc with
  | intr b ih | wakeup _ _ b ih | wakeupSet _ _ b ih | yield b ih | yieldSet _ b ih
  | yieldBack _ b ih | sched b ih => exact ih hzombie hplace
  | exitInit | exitWake | exitSelf | exitParent => exact hk.exits _ hplace
  | exitLockParent | exitLockSelf => exact ⟨hk.exits _ hplace.1, hk.parent _ hplace.2⟩
  | reparent | exitZombie =>
    exact ⟨hk.exits _ hplace.1, hk.parent _ hplace.2.1, hk.noChild _ hplace.1.1 hplace.2.2⟩
  | reparentLock | reparentSet =>
    obtain ⟨hexits, hparent, hno, hchild⟩ := hplace
    exact ⟨hk.exits _ hexits, hk.parent _ hparent, hk.noChild _ hexits.1 hno, hk.child _ hchild⟩
  | exitRelease | zombie => trivial
  | forkTest | forkAlloc | forkCopy | sleep | sleepRelease | sleepSet =>
    exact ⟨hk.fresh hplace.1, hplace.2⟩
  | waitScan | waitSleep => exact ⟨hk.fresh hplace.1, hzombie rfl _ hplace.2⟩
  | waitChild | waitTest =>
    exact ⟨hk.fresh hplace.1, hzombie rfl _ hplace.2.1, hk.child _ hplace.2.2⟩
  | _ => exact hk.fresh hplace

/-- At the end of a process its places say little. -/
theorem Place.of_ended (hended : pc.ended = true) (hfresh : Fresh m p → Fresh m' p)
    (hplace : Place m p pc) : Place m' p pc := by
  induction pc with
  | sched b ih => exact ih hended hplace
  | forkret => exact hfresh hplace
  | exitRelease | zombie => trivial
  | _ => cases hended

/-- A step that changes no family. -/
structure Calm (m m' : Machine) : Prop where
  init : m'.initproc = m.initproc
  exits : m'.exits = m.exits
  slot : ∀ i, (m'.slot i).parent = (m.slot i).parent ∧ (m'.slot i).uid = (m.slot i).uid ∧
    ((m'.slot i).state = .zombie ↔ (m.slot i).state = .zombie)

/-- What is known at a place, after a calm step. -/
theorem Calm.place (hc : Calm m m') (hplace : Place m p pc) : Place m' p pc := by
  have hkeeps : Keeps m m' p := by
    constructor
    · intro status hex
      rw [Exits, hc.init, hc.exits, (hc.slot p).2.1]
      exact hex
    · intro hfresh
      rw [Fresh, hc.exits, (hc.slot p).2.1]
      exact hfresh
    · intro q hq
      rw [Parent, hc.init, (hc.slot p).1]
      exact hq
    · intro n _ hno i hi
      rw [(hc.slot i).1]
      exact hno i hi
    · intro i hi
      rw [(hc.slot i).1, hi]
  refine hplace.mono hkeeps fun _ n hno hp i hi hpar => ?_
  rw [hc.init] at hp
  rw [(hc.slot i).1] at hpar
  rw [ne_eq, (hc.slot i).2.2]
  exact hno hp i hi hpar

end Keeps

/-! ## The code of one process -/

section Own

variable {m m' : Machine} {c d i p : Nat} {pc : Pc} {a : Move}

/-- The places that change families. -/
def Pc.turning : Pc → Bool
  | .forkCopy _ _ | .reparentSet _ _ _ _ | .exitZombie _ _ _ | .waitTest _ _ _ => true
  | _ => false

/-- Interrupts do not count. -/
theorem place_inner (pc : Pc) : Place m p pc.inner = Place m p pc := by
  induction pc with
  | intr b ih | wakeup _ _ b ih | wakeupSet _ _ b ih | yield b ih | yieldSet _ b ih
  | yieldBack _ b ih | sched b ih => exact ih
  | _ => rfl

/-- At user code. -/
theorem fresh_of_serves (h : pc.serves = true) (hplace : Place m p pc) : Fresh m p := by
  cases pc <;> first | cases h; done | exact hplace | exact hplace.1

/-- At user code and in short system calls. -/
theorem place_of_plain (h : pc.plain = true) (hfresh : Fresh m p) : Place m p pc := by
  cases pc <;> first | exact hfresh | cases h

/-- What the code has found out holds at its next place. -/
theorem Leads.place {old : Pc} (h : Leads m m' a old pc) (hof : old.Of p) (hof' : pc.Of p)
    (hturn : old.turning = false) (hexits : m'.exits = m.exits) (hplace : Place m p old) :
    Place m p pc := by
  cases h with
  | scheduler hold => exact absurd hof (hold p)
  | inner hinner => rwa [← place_inner, hinner, place_inner]
  | switches => exact hof'.elim
  | calls hold hpc =>
    rw [← place_inner]
    exact place_of_plain hpc (fresh_of_serves hold hplace)
  | sleep => exact ⟨hplace, _, rfl⟩
  | sleepBack => exact hplace.1
  | forkTest hi => exact ⟨hplace, hi⟩
  | exit hcall => exact absurd hexits hcall
  | exitLockParent hparent =>
    obtain rfl : _ = p := hof
    exact ⟨hplace, Or.inl hparent⟩
  | reparent => exact ⟨hplace.1, hplace.2, fun i hi => absurd hi (Nat.not_lt_zero i)⟩
  | reparentLock hchild =>
    obtain rfl : _ = p := hof
    exact ⟨hplace.1, hplace.2.1, hplace.2.2, hchild⟩
  | reparentNext hchild =>
    obtain rfl : _ = p := hof
    refine ⟨hplace.1, hplace.2.1, fun j hj => ?_⟩
    rcases Nat.lt_succ_iff_lt_or_eq.mp hj with hlt | rfl
    · exact hplace.2.2 j hlt
    · exact hchild
  | exitZombie hi => exact ⟨hplace.1, hplace.2.1, fun j hj => hplace.2.2 j (hj.trans_le hi)⟩
  | adopted | exitRelease | tested => cases hturn
  | zombie => trivial
  | waitScan hold =>
    rcases hold with rfl | rfl <;> exact ⟨hplace, fun _ i hi => absurd hi (Nat.not_lt_zero i)⟩
  | waitChild hchild =>
    obtain rfl : _ = p := hof
    exact ⟨hplace.1, hplace.2, hchild⟩
  | waitNext hchild =>
    obtain rfl : _ = p := hof
    refine ⟨hplace.1, fun hp j hj hj' => ?_⟩
    rcases Nat.lt_succ_iff_lt_or_eq.mp hj with hlt | rfl
    · exact hplace.2 hp j hlt hj'
    · exact absurd hj' hchild
  | waitSleep hi => exact ⟨hplace.1, fun hp j hj => hplace.2 hp j (hj.trans_le hi)⟩
  | _ => exact hplace

/-- The places before and after a move of the process itself. -/
theorem place_move (hof : (m.cpu d).pc.Of p) (hof' : (m'.cpu d).pc.Of p)
    (hturn : (m.cpu d).pc.turning = false) (hexits : m'.exits = m.exits)
    (hplace : Place m p (m.cpu d).pc) (hstep : Sched.move m d a = some m') :
    Place m p (m'.cpu d).pc := by
  rcases (effect_move hstep).next with heq | hleads
  · rwa [heq]
  · exact hleads.place hof hof' hturn hexits hplace

/-- A process in use keeps its number. -/
theorem Turn.uid (h : Turn m d p (m'.slot p)) (hused : (m.slot p).state ≠ .unused) :
    (m'.slot p).uid = (m.slot p).uid := by
  cases h with
  | born q hpc hbefore => exact absurd hbefore hused
  | kept hparent huid | adopts q status r hpc hparent huid | dies status q hpc hparent huid
  | reaped q addr hpc hbefore hparent huid => exact huid

/-- The process that executes a place which changes families. -/
theorem Inv.turning (h : Inv m) (hk : Kin m) (hpc : (m.cpu d).pc = pc) (hturn : pc.turning = true) :
    ∃ q, Active m d q ∧ pc.Of q ∧ Place m q pc := by
  have hswitch : pc.switching = false := by cases pc <;> first | rfl | cases hturn
  have hidle : ¬pc.Idle := by cases pc <;> first | exact id | cases hturn
  obtain ⟨q, ha, hof⟩ := h.active hpc hswitch hidle
  exact ⟨q, ha, hof, hpc ▸ hk.place q _ ha.alive.1 (Or.inl ⟨d, ha.proc, rfl, ha.of⟩)⟩

/-- The step is not one of process `p`. -/
def Foreign (m : Machine) (d p : Nat) : Prop :=
  (m.cpu d).proc = some p → ¬(m.cpu d).pc.Of p

/-- A foreign CPU runs another process. -/
theorem Foreign.ne {q : Nat} (hf : Foreign m d p) (ha : Active m d q) : q ≠ p := by
  rintro rfl
  exact hf ha.proc ha.of

/-- Only the step of a process itself makes it call `exit`. -/
theorem Foreign.fresh (hf : Foreign m d p) (h : Inv m) (hk : Kin m)
    (hstep : Sched.move m d a = some m') (hused : (m.slot p).state ≠ .unused)
    (hfresh : Fresh m p) : Fresh m' p := by
  have huid := (h.turn hk hstep p).uid hused
  rcases (effect_move hstep).past with ⟨hexits, -⟩ | hevent
  · rw [Fresh, hexits, huid]
    exact hfresh
  · cases hevent with
    | exit q status hpc hproc hinit hpc' hslot hexits =>
      rw [Fresh, hexits, huid, List.map_append, List.mem_append, not_or]
      refine ⟨hfresh, fun hmem => ?_⟩
      obtain ⟨q', ha, hof⟩ := h.active hpc rfl id
      cases ha.proc.symm.trans hproc
      have huids : (m.slot p).uid = (m.slot q).uid := by simpa using hmem
      exact hf.ne ha (hk.uids p q hused ha.alive.1 huids).symm
    | fork q np hpc hexits | reap q addr j hpc hzombie hslot hexits =>
      rw [Fresh, hexits, huid]
      exact hfresh

/-- Recorded exits stay recorded. -/
theorem exits_mono (hstep : Sched.move m d a = some m') {e : Nat × Int} (he : e ∈ m.exits) :
    e ∈ m'.exits := by
  rcases (effect_move hstep).past with ⟨hexits, -⟩ | hevent
  · rwa [hexits]
  · cases hevent with
    | exit q status hpc hproc hinit hpc' hslot hexits =>
      rw [hexits]
      exact List.mem_append_left _ he
    | fork q np hpc hexits | reap q addr j hpc hzombie hslot hexits => rwa [hexits]

/-- Only process `p` gets children, apart from `initproc`, and only it gives them away. -/
theorem Foreign.child (hf : Foreign m d p) (h : Inv m) (hk : Kin m)
    (hstep : Sched.move m d a = some m') (i : Nat) :
    ((m.slot i).parent = some p → (m'.slot i).parent = some p) ∧
      (p ≠ m.initproc → (m'.slot i).parent = some p → (m.slot i).parent = some p) := by
  cases h.turn hk hstep i with
  | kept hparent | dies _ _ _ hparent =>
    rw [hparent]
    exact ⟨id, fun _ => id⟩
  | born q hpc hbefore hparent =>
    obtain ⟨q', ha, rfl, -⟩ := h.turning hk hpc rfl
    rw [hparent, hk.orphan i hbefore]
    refine ⟨fun hnone => (by cases hnone), fun _ heq => ?_⟩
    exact absurd (Option.some.inj heq) (hf.ne ha)
  | adopts q status r hpc hparent =>
    obtain ⟨q', ha, hof, -, -, -, hchild⟩ := h.turning hk hpc rfl
    rw [hparent, hchild]
    refine ⟨fun heq => absurd (Option.some.inj heq) (hf.ne ha), fun hp heq => ?_⟩
    exact absurd (Option.some.inj heq).symm hp
  | reaped q addr hpc hbefore hparent =>
    obtain ⟨q', ha, hof, -, -, hchild⟩ := h.turning hk hpc rfl
    rw [hparent, hchild]
    exact ⟨fun heq => absurd (Option.some.inj heq) (hf.ne ha), fun _ hnone => (by cases hnone)⟩

/-- The parent of an exiting process changes to `initproc` at most. -/
theorem Parent.move {q : Nat} (hq : Parent m p q) (h : Inv m) (hk : Kin m)
    (hstep : Sched.move m d a = some m') (halive : Alive m p) : Parent m' p q := by
  have hinit := (effect_move hstep).init
  unfold Parent
  rw [hinit]
  cases h.turn hk hstep p with
  | kept hparent | dies _ _ _ hparent =>
    rw [hparent]
    exact hq
  | born _ _ hbefore => exact absurd hbefore halive.1
  | adopts _ _ _ _ hparent => exact Or.inr hparent
  | reaped _ _ _ hbefore => exact absurd hbefore halive.2

/-- A zombie child appears under the lock of its parent. -/
theorem Foreign.noZombie {n : Nat} (hf : Foreign m d p) (h : Inv m) (hk : Kin m)
    (hstep : Sched.move m d a = some m') (hlock : m.lock (.proc p) ≠ some d)
    (hno : NoZombie m p n) : NoZombie m' p n := by
  intro hp i hi hparent hzombie
  rw [(effect_move hstep).init] at hp
  have hchild := (hf.child h hk hstep i).2 hp hparent
  refine hno hp i hi hchild ?_
  cases h.turn hk hstep i with
  | kept _ _ _ hiff => exact hiff.mp hzombie
  | born _ _ _ _ _ hstate => simp [hstate] at hzombie
  | adopts _ _ _ _ _ _ hstate => rwa [hstate] at hzombie
  | dies status q hpc =>
    obtain ⟨q', ha, rfl, -, hpar, -⟩ := h.turning hk hpc rfl
    have hq : q = p := by
      rcases hpar with hpar | hpar
      · exact Option.some.inj (hpar.symm.trans hchild)
      · exact absurd (Option.some.inj (hchild.symm.trans hpar)) hp
    exact absurd (h.lock_of_held (by simp [Cpu.held, Pc.held, hpc, hq])) hlock
  | reaped _ _ _ _ _ _ hstate => simp [hstate] at hzombie

/-- The frame lemma: the steps of others leave the facts of a place alone. -/
theorem Foreign.place (hf : Foreign m d p) (h : Inv m) (hn : Naps m) (hk : Kin m)
    (hstep : Sched.move m d a = some m') (hused : (m.slot p).state ≠ .unused)
    (hcode : Code m p pc) : Place m' p pc := by
  have hplace := hk.place p pc hused hcode
  have hfresh := hf.fresh h hk hstep hused
  by_cases hzombie : (m.slot p).state = .zombie
  · exact hplace.of_ended (hn.ended p (Or.inr hzombie) pc hcode) hfresh
  have hkeeps : Keeps m m' p := by
    refine ⟨fun status hex => ?_, hfresh, fun q hq => hq.move h hk hstep ⟨hused, hzombie⟩,
      fun n hp hno i hi hpar => ?_, fun i => (hf.child h hk hstep i).1⟩
    · refine ⟨by rw [(effect_move hstep).init]; exact hex.1, ?_⟩
      rw [(h.turn hk hstep p).uid hused]
      exact exits_mono hstep hex.2
    · exact hno i hi ((hf.child h hk hstep i).2 hp hpar)
  refine hplace.mono hkeeps fun hscan n => hf.noZombie h hk hstep fun hlock => ?_
  -- the loop of `wait` holds the lock on another CPU
  obtain ⟨hheld, -, hresumes⟩ := Pc.held_of_scanning m.initproc hscan (h.code_of hcode)
  rcases hcode with ⟨c, hproc, hpc, hof⟩ | hcontext
  · have hc := h.lock_of_held (c := c) (i := p) (by rw [Cpu.held, hproc, hpc]; exact hheld)
    cases hc.symm.trans hlock
    exact hf hproc (hpc ▸ hof)
  · rw [(h.resume p pc hcontext).1] at hresumes
    cases hresumes

/-- Code that waits for an outcome goes on with one. -/
theorem Inv.copy_of_asks (h : Inv m) (hpc : (m.cpu d).pc = pc)
    (hasks : (∃ q np, pc = .forkCopy q np) ∨ ∃ q addr i, pc = .waitTest q addr i)
    (hstep : Sched.move m d a = some m') : ∃ ok, a = .copy ok := by
  have hlocks : (m.cpu d).locks ≠ [] := by
    intro hnil
    have := h.free hnil
    rw [hpc] at this
    obtain ⟨q, np, rfl⟩ | ⟨q, addr, i, rfl⟩ := hasks <;> cases this
  obtain ⟨q, np, rfl⟩ | ⟨q, addr, i, rfl⟩ := hasks <;> cases a <;>
    simp_all [Sched.move, Sched.run, syscall, Pc.handler]

/-- Only a call of `exit` from user code is recorded as one. -/
theorem exits_eq (hpc : (m.cpu d).pc ≠ .user) (hstep : Sched.move m d a = some m') :
    m'.exits = m.exits := by
  rcases (effect_move hstep).past with ⟨hexits, -⟩ | hevent
  · exact hexits
  · cases hevent with
    | exit q status hpc' => exact absurd hpc' hpc
    | fork q np _ hexits | reap q addr j _ _ _ hexits => exact hexits

/-- A move of the process itself, from kernel code. -/
theorem Fresh.own (hfresh : Fresh m p) (h : Inv m) (hk : Kin m) (hstep : Sched.move m d a = some m')
    (hused : (m.slot p).state ≠ .unused) (hpc : (m.cpu d).pc ≠ .user) : Fresh m' p := by
  rw [Fresh, exits_eq hpc hstep, (h.turn hk hstep p).uid hused]
  exact hfresh

/-- A step from a place that changes no family. -/
theorem Inv.calm_move (h : Inv m) (hk : Kin m) (hturn : (m.cpu d).pc.turning = false)
    (hexits : m'.exits = m.exits) (hstep : Sched.move m d a = some m') : Calm m m' where
  init := (effect_move hstep).init
  exits := hexits
  slot i := by
    cases h.turn hk hstep i with
    | kept hparent huid _ hzombie => exact ⟨hparent, huid, hzombie⟩
    | born _ hpc | adopts _ _ _ hpc | dies _ _ hpc | reaped _ _ hpc =>
      simp [hpc, Pc.turning] at hturn

/-- The place after a successful or failed `uvmcopy` in `fork`. -/
theorem Inv.place_forkCopy {np : Nat} (h : Inv m) (hk : Kin m) (hstep : Sched.move m d a = some m')
    (hpc : (m.cpu d).pc = .forkCopy p np) (hused : (m.slot p).state ≠ .unused)
    (hplace : Place m p (.forkCopy p np)) : Place m' p (m'.cpu d).pc := by
  have hfresh := Fresh.own hplace.1 h hk hstep hused (by simp [hpc])
  have hlock : m.lock (.proc np) = some d := h.lock_of_held (by simp [Cpu.held, Pc.held, hpc])
  obtain ⟨ok, rfl⟩ := h.copy_of_asks hpc (Or.inl ⟨p, np, rfl⟩) hstep
  simp only [Sched.move, hpc, Sched.forkCopy] at hstep
  split at hstep <;> obtain rfl := release_eq hstep hlock <;> simpa [Place] using hfresh

/-- The place after the look at a child in `wait`. -/
theorem Inv.place_waitTest {addr : Nat} (h : Inv m) (hk : Kin m)
    (hstep : Sched.move m d a = some m') (hpc : (m.cpu d).pc = .waitTest p addr i)
    (hused : (m.slot p).state ≠ .unused) (hplace : Place m p (.waitTest p addr i)) :
    Place m' p (m'.cpu d).pc := by
  have hfresh := Fresh.own hplace.1 h hk hstep hused (by simp [hpc])
  have hlock : m.lock (.proc i) = some d := h.lock_of_held (by simp [Cpu.held, Pc.held, hpc])
  obtain ⟨ok, rfl⟩ := h.copy_of_asks hpc (Or.inr ⟨p, addr, i, rfl⟩) hstep
  simp only [Sched.move, hpc, Sched.waitTest] at hstep
  split at hstep
  next =>
    split at hstep <;> obtain rfl := release_eq hstep hlock <;> simpa [Place] using hfresh
  next hzombie =>
    obtain rfl := release_eq hstep hlock
    have hcalm : Calm m (m.gave d (.proc i) (.waitScan p addr (i + 1) true)) :=
      ⟨rfl, rfl, fun _ => ⟨rfl, rfl, Iff.rfl⟩⟩
    have hnext : Place m p (.waitScan p addr (i + 1) true) := by
      refine ⟨hplace.1, fun hp j hj hchild => ?_⟩
      rcases Nat.lt_succ_iff_lt_or_eq.mp hj with hlt | rfl
      · exact hplace.2.1 hp j hlt hchild
      · exact hzombie
    simpa using hcalm.place hnext

/-- The place after `initproc` has adopted a child. -/
theorem Inv.place_reparentSet {status : Int} {q : Nat} (h : Inv m) (hk : Kin m)
    (hstep : Sched.move m d a = some m') (hpc : (m.cpu d).pc = .reparentSet p status q i)
    (halive : Alive m p) (hplace : Place m p (.reparentSet p status q i)) :
    Place m' p (m'.cpu d).pc := by
  obtain ⟨hexits, hparent, hno, -⟩ := hplace
  have hexits' : Exits m' p status := by
    refine ⟨by rw [(effect_move hstep).init]; exact hexits.1, ?_⟩
    rw [(h.turn hk hstep p).uid halive.1]
    exact exits_mono hstep hexits.2
  have hparent' := hparent.move h hk hstep halive
  have hlock : m.lock (.proc i) = some d := h.lock_of_held (by simp [Cpu.held, Pc.held, hpc])
  have hrun := h.run_of_locked hpc rfl rfl hstep
  simp only [Sched.run, hpc] at hrun
  have hno' : NoChild m' p (i + 1) := by
    intro j hj
    rw [slot_of_setRelease hrun]
    obtain rfl | hji := eq_or_ne j i
    · simpa using fun heq => hexits.1 heq.symm
    · rw [Function.update_of_ne hji]
      exact hno j (by omega)
  have hpc' : (m'.cpu d).pc = .reparent p status q (i + 1) := by
    rw [release_eq hrun hlock]
    simp
  rw [hpc']
  exact ⟨hexits', hparent', hno'⟩

/-- What holds at the next place of the code of a process. -/
theorem Inv.own_place (h : Inv m) (hk : Kin m) (hstep : Sched.move m d a = some m')
    (hproc : (m.cpu d).proc = some p) (hof : (m.cpu d).pc.Of p) (hof' : (m'.cpu d).pc.Of p) :
    Place m' p (m'.cpu d).pc := by
  have hused := h.used hproc
  have hplace := hk.place p _ hused (Or.inl ⟨d, hproc, rfl, hof⟩)
  cases hturn : (m.cpu d).pc.turning with
  | false =>
    rcases (effect_move hstep).past with ⟨hexits, -⟩ | hevent
    · exact (h.calm_move hk hturn hexits hstep).place
        (place_move hof hof' hturn hexits hplace hstep)
    · cases hevent with
      | exit q status hpc hq hinit hpc' hslot hexits =>
        cases hproc.symm.trans hq
        rw [hpc']
        refine ⟨by rw [(effect_move hstep).init]; exact hinit, ?_⟩
        rw [hexits, hslot]
        exact List.mem_append_right _ (List.mem_singleton_self _)
      | fork q np hpc | reap q addr i hpc => simp [hpc, Pc.turning] at hturn
  | true =>
    cases hpc : (m.cpu d).pc <;> rw [hpc] at hof hplace hturn
    case forkCopy q np =>
      obtain rfl : q = p := hof
      exact h.place_forkCopy hk hstep hpc hused hplace
    case waitTest q addr i =>
      obtain rfl : q = p := hof
      exact h.place_waitTest hk hstep hpc hused hplace
    case reparentSet q status r i =>
      obtain rfl : q = p := hof
      obtain ⟨q', ha, rfl, -⟩ := h.turning hk hpc rfl
      exact h.place_reparentSet hk hstep hpc ha.alive hplace
    case exitZombie q status r =>
      have hlock : m.lock (.proc r) = some d := h.lock_of_held (by simp [Cpu.held, Pc.held, hpc])
      have hrun := h.run_of_locked hpc rfl rfl hstep
      simp only [Sched.run, hpc, Sched.exitZombie, hlock, ne_eq, not_true_eq_false, if_false]
        at hrun
      cases hrun
      simp [Place]
    all_goals cases hturn

/-- A new process has not called `exit`, and its code is `forkret`. -/
theorem Inv.born_place {q : Nat} (h : Inv m) (hn : Naps m) (hk : Kin m)
    (hstep : Sched.move m d a = some m') (hpc : (m.cpu d).pc = .forkCopy q p)
    (huid : (m'.slot p).uid = m.born) (hcode : Code m' p pc) : Place m' p pc := by
  have hunused : (m.slot p).state = .unused := (h.setup hpc (by simp [Pc.setup])).1
  have hfresh : Fresh m' p := by
    rw [Fresh, exits_eq (by simp [hpc]) hstep, huid]
    intro hmem
    obtain ⟨e, he, heq⟩ := List.mem_map.mp hmem
    exact absurd (hk.exitsOld e he) (by omega)
  rcases h.code_back hstep hcode with hsame | ⟨hproc, -⟩ | ⟨rfl, -⟩
  · rcases hsame with ⟨c, hproc, -⟩ | hcontext
    · exact absurd hunused (h.used hproc)
    · have hended := hn.ended p (Or.inl hunused) pc (Or.inr hcontext)
      have hresumes := (h.resume p pc hcontext).1
      cases pc <;> first | exact hfresh | trivial
  · exact absurd hunused (h.used hproc)
  · exact hfresh

/-- What holds at the places of all processes. -/
theorem Inv.places (h : Inv m) (hn : Naps m) (hk : Kin m) (hstep : Sched.move m d a = some m')
    (hused' : (m'.slot p).state ≠ .unused) (hcode : Code m' p pc) : Place m' p pc := by
  have h' := h.move hstep
  by_cases hown : (m.cpu d).proc = some p ∧ (m.cpu d).pc.Of p
  · obtain ⟨hproc, hof⟩ := hown
    rcases h.code_own hstep hproc hof hcode with rfl | hsched
    · exact h.own_place hk hstep hproc hof (h'.code_of hcode)
    · have hplace := hk.place p _ (h.used hproc) (Or.inl ⟨d, hproc, rfl, hof⟩)
      have hexits := exits_eq (by simp [hsched]) hstep
      rw [hsched] at hplace
      exact (h.calm_move hk (by rw [hsched]; rfl) hexits hstep).place hplace
  · have hf : Foreign m d p := fun hproc hof => hown ⟨hproc, hof⟩
    by_cases hused : (m.slot p).state = .unused
    · cases h.turn hk hstep p with
      | born q hpc _ _ huid => exact h.born_place hn hk hstep hpc huid hcode
      | kept _ _ hiff => exact absurd (hiff.mpr hused) hused'
      | adopts _ _ _ _ _ _ hstate => exact absurd (hstate.trans hused) hused'
      | dies status q hpc =>
        obtain ⟨q', ha, rfl, -⟩ := h.turning hk hpc rfl
        exact absurd hused ha.alive.1
      | reaped _ _ _ _ _ _ hstate => exact absurd hstate hused'
    · rcases h.code_back hstep hcode with hsame | ⟨hproc, hof, -⟩ | ⟨-, hunused⟩
      · exact hf.place h hn hk hstep hused hsame
      · exact absurd ⟨hproc, hof⟩ hown
      · exact absurd hunused hused

end Own

/-! ## The invariant is kept -/

section Step

variable {m m' : Machine} {c d i p q : Nat} {pc : Pc} {a : Move}

/-- A process that is alive ends in `exit` only, with no child left. -/
theorem Inv.alive_move (h : Inv m) (hk : Kin m) (hstep : Sched.move m d a = some m')
    (halive : Alive m q) : Alive m' q ∨
      (∃ status r, (m.cpu d).pc = .exitZombie q status r) ∧ q ≠ m.initproc ∧
        NoChild m q nproc := by
  cases h.turn hk hstep q with
  | kept _ _ hunused hzombie =>
    exact Or.inl ⟨fun hs => halive.1 (hunused.mp hs), fun hs => halive.2 (hzombie.mp hs)⟩
  | born _ _ hbefore => exact absurd hbefore halive.1
  | adopts _ _ _ _ _ _ hstate =>
    exact Or.inl ⟨by rw [hstate]; exact halive.1, by rw [hstate]; exact halive.2⟩
  | dies status r hpc =>
    obtain ⟨q', ha, rfl, hexits, -, hno⟩ := h.turning hk hpc rfl
    exact Or.inr ⟨⟨status, r, hpc⟩, hexits.1, hno⟩
  | reaped _ _ _ hbefore => exact absurd hbefore halive.2

/-- `initproc` stays alive. -/
theorem Inv.init_move (h : Inv m) (hk : Kin m) (hstep : Sched.move m d a = some m') :
    Alive m' m'.initproc := by
  rw [(effect_move hstep).init]
  rcases h.alive_move hk hstep hk.init with halive | ⟨-, hne, -⟩
  · exact halive
  · exact absurd rfl hne

/-- The parents after a step. -/
theorem Inv.parent_move (h : Inv m) (hk : Kin m) (hstep : Sched.move m d a = some m')
    (hparent : (m'.slot i).parent = some q) :
    (m.slot i).parent = some q ∨ (q = m.initproc ∧ (m.slot i).parent ≠ none) ∨
      (Active m d q ∧ i < nproc ∧ ∃ r, (m.cpu d).pc = .forkCopy q r) := by
  cases h.turn hk hstep i with
  | kept hsame | dies _ _ _ hsame => exact Or.inl (hsame.symm.trans hparent)
  | born r hpc _ hnew =>
    obtain ⟨q', ha, rfl, hplace⟩ := h.turning hk hpc rfl
    cases hnew.symm.trans hparent
    exact Or.inr (Or.inr ⟨ha, hplace.2, i, hpc⟩)
  | adopts r status s hpc hnew =>
    obtain ⟨q', -, -, -, -, -, hchild⟩ := h.turning hk hpc rfl
    exact Or.inr (Or.inl ⟨Option.some.inj (hparent.symm.trans hnew), by simp [hchild]⟩)
  | reaped _ _ _ _ hnone => simp [hnone] at hparent

/-- A parent stays alive. -/
theorem Inv.alive_parent (h : Inv m) (hk : Kin m) (hstep : Sched.move m d a = some m')
    (hparent : (m'.slot i).parent = some q) : Alive m' q := by
  rcases h.parent_move hk hstep hparent with hold | ⟨rfl, -⟩ | ⟨ha, -, r, hpc⟩
  · rcases h.alive_move hk hstep (hk.alive i q hold) with halive | ⟨-, -, hno⟩
    · exact halive
    · exact absurd hold (hno i (hk.range i (by simp [hold])))
  · rw [← (effect_move hstep).init]
    exact h.init_move hk hstep
  · rcases h.alive_move hk hstep ha.alive with halive | ⟨⟨status, s, hpc'⟩, -⟩
    · exact halive
    · rw [hpc] at hpc'
      cases hpc'

/-- A zombie child of `p` appears in the `exit` that has locked `p`. -/
theorem Inv.zombie_child (h : Inv m) (hk : Kin m) (hstep : Sched.move m d a = some m')
    (hp : p ≠ m.initproc) (hchild : (m.slot i).parent = some p)
    (hzombie : (m'.slot i).state = .zombie) :
    (m.slot i).state = .zombie ∨ ∃ status, (m.cpu d).pc = .exitZombie i status p := by
  cases h.turn hk hstep i with
  | kept _ _ _ hiff => exact Or.inl (hiff.mp hzombie)
  | adopts _ _ _ _ _ _ hstate => exact Or.inl (hstate ▸ hzombie)
  | born _ _ _ _ _ hstate | reaped _ _ _ _ _ _ hstate => simp [hstate] at hzombie
  | dies status q hpc =>
    obtain ⟨q', -, rfl, -, hparent, -⟩ := h.turning hk hpc rfl
    rcases hparent with hparent | hparent
    · cases hparent.symm.trans hchild
      exact Or.inr ⟨status, hpc⟩
    · exact absurd (Option.some.inj (hchild.symm.trans hparent)) hp

/-- A process that sleeps in `wait` after a step. -/
theorem Inv.quiet_move (h : Inv m) (hk : Kin m) (hstep : Sched.move m d a = some m')
    (hp : p ≠ m.initproc) (hasleep : Asleep m' p (.proc p))
    (hparent : (m'.slot i).parent = some p) :
    (m'.slot i).state ≠ .zombie := by
  intro hzombie
  rcases ((effect_move hstep).slots p).sleeping hasleep.1 with
    ⟨hbefore, hchan⟩ | ⟨ch, k, hpc, hchan⟩ | ⟨addr, hpc, hchan⟩
  · have hidle : ¬Active m d p := fun ha => by simp [ha.state] at hbefore
    have hsame : (m'.slot p).chan = (m.slot p).chan := by
      rcases hchan with hsame | ⟨ch, k, hpc⟩ | ⟨addr, hpc⟩
      · exact hsame
      · obtain ⟨q, ha, hof⟩ := h.active hpc rfl id
        exact absurd (show p = q from hof) fun heq => hidle (heq ▸ ha)
      · obtain ⟨q, ha, hof⟩ := h.active hpc rfl id
        exact absurd (show p = q from hof) fun heq => hidle (heq ▸ ha)
    rcases h.parent_move hk hstep hparent with hchild | ⟨rfl, -⟩ | ⟨ha, -⟩
    · rcases h.zombie_child hk hstep hp hchild hzombie with hold | ⟨status, hpc⟩
      · exact hk.quiet p hp ⟨hbefore, hsame.symm.trans hasleep.2⟩ i hchild hold
      · exact h.wakes_parent hpc (h.run_of_locked hpc rfl rfl hstep) hasleep
    · exact hp rfl
    · exact hidle ha
  · obtain ⟨q, ha, rfl⟩ := h.active hpc rfl id
    have hplace := hk.place p _ ha.alive.1 (Or.inl ⟨d, ha.proc, hpc, rfl⟩)
    obtain ⟨-, x, rfl⟩ := hplace
    simp [hasleep.2] at hchan
  · obtain ⟨q, ha, rfl⟩ := h.active hpc rfl id
    have hplace := hk.place p _ ha.alive.1 (Or.inl ⟨d, ha.proc, hpc, rfl⟩)
    rcases h.parent_move hk hstep hparent with hchild | ⟨rfl, -⟩ | ⟨-, -, r, hpc'⟩
    · rcases h.zombie_child hk hstep hp hchild hzombie with hold | ⟨status, hpc'⟩
      · exact hplace.2 hp i (hk.range i (by simp [hchild])) hchild hold
      · rw [hpc] at hpc'
        cases hpc'
    · exact hp rfl
    · rw [hpc] at hpc'
      cases hpc'

/-- The reaped children after a step. -/
theorem reaps_move (hstep : Sched.move m d a = some m') :
    m'.reaps = m.reaps ∨ ∃ p addr i, (m.cpu d).pc = .waitTest p addr i ∧
      (m.slot i).state = .zombie ∧ m'.slot i = (m.slot i).freeproc ∧
      m'.reaps = m.reaps ++ [⟨p, (m.slot i).parent, (m.slot i).uid, addr,
        if addr ≠ 0 then some (m.slot i).xstate else none⟩] := by
  rcases (effect_move hstep).past with ⟨-, hreaps, -⟩ | hevent
  · exact Or.inl hreaps
  · cases hevent with
    | exit _ _ _ _ _ _ _ _ hreaps | fork _ _ _ _ hreaps => exact Or.inl hreaps
    | reap p addr i hpc hzombie hslot _ hreaps =>
      exact Or.inr ⟨p, addr, i, hpc, hzombie, hslot, hreaps⟩

/-- The births are counted. -/
theorem Inv.born_step (h : Inv m) (hpc : (m.cpu d).pc = .forkCopy q i)
    (hstate : (m'.slot i).state = .runnable) (hstep : Sched.move m d a = some m') :
    m'.born = m.born + 1 := by
  obtain ⟨ok, rfl⟩ := h.copy_of_asks hpc (Or.inl ⟨q, i, rfl⟩) hstep
  simp only [Sched.move, hpc, Sched.forkCopy] at hstep
  split at hstep
  · obtain rfl := release_eq hstep (h.lock_of_held (by simp [Cpu.held, Pc.held, hpc]))
    rfl
  · rw [slot_of_setRelease hstep, Function.update_self] at hstate
    cases hstate

/-- Births are only added. -/
theorem born_mono (hstep : Sched.move m d a = some m') : m.born ≤ m'.born := by
  rcases (effect_move hstep).past with ⟨-, -, hborn⟩ | hevent
  · exact hborn.ge
  · cases hevent with
    | exit _ _ _ _ _ _ _ _ _ hborn | fork _ _ _ _ _ hborn | reap _ _ _ _ _ _ _ _ hborn => omega

/-- The number of a process in use is old or new. -/
theorem Inv.uid_move (h : Inv m) (hk : Kin m) (hstep : Sched.move m d a = some m')
    (hused : (m'.slot i).state ≠ .unused) :
    ((m.slot i).state ≠ .unused ∧ (m'.slot i).uid = (m.slot i).uid) ∨
      ((∃ r, (m.cpu d).pc = .forkCopy r i) ∧ (m'.slot i).uid = m.born ∧ m'.born = m.born + 1) := by
  cases h.turn hk hstep i with
  | kept _ huid hunused => exact Or.inl ⟨fun hs => hused (hunused.mpr hs), huid⟩
  | born r hpc _ _ huid hstate => exact Or.inr ⟨⟨r, hpc⟩, huid, h.born_step hpc hstate hstep⟩
  | adopts _ _ _ _ _ huid hstate => exact Or.inl ⟨hstate ▸ hused, huid⟩
  | dies status r hpc _ huid =>
    obtain ⟨q', ha, rfl, -⟩ := h.turning hk hpc rfl
    exact Or.inl ⟨ha.alive.1, huid⟩
  | reaped _ _ _ _ _ _ hstate => exact absurd hstate hused

/-- The step lemma. -/
theorem Kin.move (hk : Kin m) (h : Inv m) (hn : Naps m) (hstep : Sched.move m d a = some m') :
    Kin m' where
  init := h.init_move hk hstep
  alive i q := h.alive_parent hk hstep
  parent i hi hused := by
    rw [(effect_move hstep).init] at hi
    cases h.turn hk hstep i with
    | kept hsame _ hunused =>
      rw [hsame]
      exact hk.parent i hi fun hs => hused (hunused.mpr hs)
    | born _ _ _ hnew | adopts _ _ _ _ hnew => simp [hnew]
    | dies status r hpc hsame =>
      obtain ⟨q', ha, rfl, -⟩ := h.turning hk hpc rfl
      rw [hsame]
      exact hk.parent i hi ha.alive.1
    | reaped _ _ _ _ _ _ hstate => exact absurd hstate hused
  orphan i hunused := by
    cases h.turn hk hstep i with
    | kept hsame _ hiff =>
      rw [hsame]
      exact hk.orphan i (hiff.mp hunused)
    | born _ _ _ _ _ hstate | dies _ _ _ _ _ hstate => simp [hstate] at hunused
    | adopts r status s hpc _ _ hstate =>
      obtain ⟨q', -, -, -, -, -, hchild⟩ := h.turning hk hpc rfl
      rw [hstate] at hunused
      simp [hk.orphan i hunused] at hchild
    | reaped _ _ _ _ hnone => exact hnone
  range i hparent := by
    obtain ⟨q, hq⟩ := Option.ne_none_iff_exists'.mp hparent
    rcases h.parent_move hk hstep hq with hold | ⟨-, hold⟩ | ⟨-, hi, -⟩
    · exact hk.range i (by simp [hold])
    · exact hk.range i hold
    · exact hi
  place p pc hused hcode := h.places hn hk hstep hused hcode
  quiet p hp hasleep i hparent := by
    rw [(effect_move hstep).init] at hp
    exact h.quiet_move hk hstep hp hasleep hparent
  status i hzombie := by
    cases h.turn hk hstep i with
    | kept _ huid _ hiff hstatus =>
      rw [huid, hstatus (hiff.mp hzombie)]
      exact exits_mono hstep (hk.status i (hiff.mp hzombie))
    | born _ _ _ _ _ hstate | reaped _ _ _ _ _ _ hstate => simp [hstate] at hzombie
    | adopts _ _ _ _ _ huid hstate hstatus =>
      rw [huid, hstatus]
      exact exits_mono hstep (hk.status i (hstate ▸ hzombie))
    | dies status r hpc _ huid _ hstatus =>
      obtain ⟨q', ha, rfl, hexits, -⟩ := h.turning hk hpc rfl
      rw [huid, hstatus]
      exact exits_mono hstep hexits.2
  uids i j hi hj heq := by
    rcases h.uid_move hk hstep hi with ⟨hi, hiu⟩ | ⟨⟨r, hpc⟩, hiu, -⟩ <;>
      rcases h.uid_move hk hstep hj with ⟨hj, hju⟩ | ⟨⟨s, hpc'⟩, hju, -⟩ <;> rw [hiu, hju] at heq
    · exact hk.uids i j hi hj heq
    · exact absurd (hk.old i hi) (by omega)
    · exact absurd (hk.old j hj) (by omega)
    · rw [hpc] at hpc'
      injection hpc'
  old i hused := by
    have hmono := born_mono hstep
    rcases h.uid_move hk hstep hused with ⟨hi, hiu⟩ | ⟨-, hiu, hborn⟩
    · exact hiu ▸ (hk.old i hi).trans_le hmono
    · omega
  exitsOld e he := by
    refine lt_of_lt_of_le ?_ (born_mono hstep)
    rcases (effect_move hstep).past with ⟨hexits, -⟩ | hevent
    · exact hk.exitsOld e (hexits ▸ he)
    · cases hevent with
      | exit p status hpc hproc _ _ _ hexits =>
        rw [hexits, List.mem_append, List.mem_singleton] at he
        rcases he with he | rfl
        · exact hk.exitsOld e he
        · exact hk.old p (h.used hproc)
      | fork _ _ _ hexits | reap _ _ _ _ _ _ hexits => exact hk.exitsOld e (hexits ▸ he)
  exitsOnce := by
    rcases (effect_move hstep).past with ⟨hexits, -⟩ | hevent
    · exact hexits ▸ hk.exitsOnce
    · cases hevent with
      | exit p status hpc hproc _ _ _ hexits =>
        have hfresh := hk.place p .user (h.used hproc) (Or.inl ⟨d, hproc, hpc, trivial⟩)
        rw [hexits, List.map_append]
        refine List.nodup_append.mpr ⟨hk.exitsOnce, by simp, ?_⟩
        rintro u hu v hv rfl
        obtain rfl : u = (m.slot p).uid := by simpa using hv
        exact hfresh hu
      | fork _ _ _ hexits | reap _ _ _ _ _ _ hexits => exact hexits ▸ hk.exitsOnce
  reapsOld r hr := by
    refine lt_of_lt_of_le ?_ (born_mono hstep)
    rcases reaps_move hstep with hreaps | ⟨p, addr, i, hpc, hzombie, -, hreaps⟩
    · exact hk.reapsOld r (hreaps ▸ hr)
    · rw [hreaps, List.mem_append, List.mem_singleton] at hr
      rcases hr with hr | rfl
      · exact hk.reapsOld r hr
      · exact hk.old i (by simp [hzombie])
  reapsOnce := by
    rcases reaps_move hstep with hreaps | ⟨p, addr, i, hpc, hzombie, -, hreaps⟩
    · exact hreaps ▸ hk.reapsOnce
    · rw [hreaps, List.map_append]
      refine List.nodup_append.mpr ⟨hk.reapsOnce, by simp, ?_⟩
      simpa using hk.unreaped i (by simp [hzombie])
  unreaped i hused := by
    have hold : (m'.slot i).uid ∉ m.reaps.map Reap.uid := by
      rcases h.uid_move hk hstep hused with ⟨hi, hiu⟩ | ⟨-, hiu, -⟩
      · exact hiu ▸ hk.unreaped i hi
      · intro hmem
        obtain ⟨r, hr, heq⟩ := List.mem_map.mp hmem
        exact absurd (hk.reapsOld r hr) (by omega)
    rcases reaps_move hstep with hreaps | ⟨p, addr, j, hpc, hzombie, hfree, hreaps⟩
    · exact hreaps ▸ hold
    · rw [hreaps, List.map_append, List.mem_append, not_or]
      refine ⟨hold, fun hmem => ?_⟩
      have heq : (m'.slot i).uid = (m.slot j).uid := by simpa using hmem
      have hj : (m.slot j).state ≠ .unused := by simp [hzombie]
      rcases h.uid_move hk hstep hused with ⟨hi, hiu⟩ | ⟨-, hiu, -⟩
      · obtain rfl := hk.uids i j hi hj (hiu.symm.trans heq)
        exact hused (by rw [hfree]; rfl)
      · exact absurd (hk.old j hj) (by omega)
  reaps r hr := by
    rcases reaps_move hstep with hreaps | ⟨p, addr, i, hpc, hzombie, -, hreaps⟩
    · obtain ⟨hparent, hstored⟩ := hk.reaps r (hreaps ▸ hr)
      exact ⟨hparent, fun haddr => (hstored haddr).imp fun _ hs => ⟨exits_mono hstep hs.1, hs.2⟩⟩
    · rw [hreaps, List.mem_append, List.mem_singleton] at hr
      rcases hr with hr | rfl
      · obtain ⟨hparent, hstored⟩ := hk.reaps r hr
        exact ⟨hparent, fun haddr => (hstored haddr).imp fun _ hs => ⟨exits_mono hstep hs.1, hs.2⟩⟩
      · obtain ⟨q, -, rfl, -, -, hchild⟩ := h.turning hk hpc rfl
        exact ⟨hchild, fun haddr => ⟨_, exits_mono hstep (hk.status i hzombie), if_pos haddr⟩⟩

/-- It holds at boot. -/
theorem kin_boot : Kin boot where
  init := ⟨by simp [boot], by simp [boot]⟩
  alive i q hparent := by
    by_cases hi : i = 0 <;> simp [boot, hi, Slot.zero] at hparent
  parent i hi hused := by
    change i ≠ 0 at hi
    simp [boot, hi, Slot.zero] at hused
  orphan i _ := by
    by_cases hi : i = 0 <;> simp [boot, hi, Slot.zero]
  range i hparent := by
    by_cases hi : i = 0 <;> simp [boot, hi, Slot.zero] at hparent
  place p pc hused hcode := by
    have hp : p = 0 := by
      by_contra hp
      simp [boot, hp, Slot.zero] at hused
    subst hp
    rcases hcode with ⟨c, hproc, -⟩ | hcontext
    · simp [boot] at hproc
    · obtain rfl : Pc.forkret = pc := by simpa [boot] using hcontext
      simp [Place, Fresh, boot]
  quiet p hp hasleep := by
    by_cases hi : p = 0 <;> simp [Asleep, boot, hi, Slot.zero] at hasleep
  status i hzombie := by
    by_cases hi : i = 0 <;> simp [boot, hi, Slot.zero] at hzombie
  uids i j hi hj _ := by
    by_cases hi' : i = 0 <;> by_cases hj' : j = 0 <;> simp [boot, hi', hj', Slot.zero] at hi hj ⊢
  old i hused := by
    by_cases hi : i = 0 <;> simp [boot, hi, Slot.zero] at hused ⊢
  exitsOld e he := by simp [boot] at he
  exitsOnce := by simp [boot]
  reapsOld r hr := by simp [boot] at hr
  reapsOnce := by simp [boot]
  unreaped i _ := by simp [boot]
  reaps r hr := by simp [boot] at hr

end Step

/-! ## The results -/

/-- What `fork`, `exit` and `wait` achieve together. -/
structure FamilyTree (m : Machine) : Prop where
  /-- A process other than `initproc` has a parent, which has not ended. -/
  parent : ∀ i, i ≠ m.initproc → (m.slot i).state ≠ .unused →
    ∃ q, (m.slot i).parent = some q ∧ (m.slot q).state ≠ .unused ∧ (m.slot q).state ≠ .zombie
  init : (m.slot m.initproc).state ≠ .zombie
  /-- No process calls `exit` twice, and none is reaped twice. -/
  exitsOnce : (m.exits.map Prod.fst).Nodup
  reapsOnce : (m.reaps.map Reap.uid).Nodup
  /-- The `wait` that reaps a child is called by its parent and stores its status. -/
  reaps : ∀ r ∈ m.reaps, r.parent = some r.caller ∧
    (r.addr ≠ 0 → ∃ status, (r.uid, status) ∈ m.exits ∧ r.stored = some status)

section Result

variable {n : Nat} {m : Machine}

/-- The run lemma. -/
theorem kin_run (hrun : Run step (Cpus n) boot m) : Kin m := by
  refine (hrun.invariant (I := fun t => Inv t ∧ Naps t ∧ Kin t)
    ⟨inv_boot, naps_boot, kin_boot⟩ ?_).2.2
  rintro t a t' ⟨ht, hn, hk⟩ _ hstep
  have hmove := move_of_step hstep
  exact ⟨ht.move hmove, hn.move ht hmove, hk.move ht hn hmove⟩

/-- The family tree, in every state that any number of CPUs reach. -/
theorem family_tree (hrun : Run step (Cpus n) boot m) : FamilyTree m := by
  have hk := kin_run hrun
  refine ⟨fun i hi hused => ?_, hk.init.2, hk.exitsOnce, hk.reapsOnce, hk.reaps⟩
  obtain ⟨q, hq⟩ := Option.ne_none_iff_exists'.mp (hk.parent i hi hused)
  exact ⟨q, hq, hk.alive i q hq⟩

/-- The first process forks a child, which exits with 7, and waits for it. -/
theorem family_tree_one_child : ∃ m, Run step (Cpus 1) boot m ∧ m.exits = [(1, 7)] ∧
    m.reaps.map Reap.stored = [some 7] ∧ FamilyTree m := by
  have hexec : (exec step (fun _ a => a.cpu < 1) boot
      (List.replicate 5 ⟨0, .run⟩ ++ [⟨0, .fork⟩] ++ List.replicate 4 ⟨0, .run⟩ ++
        [⟨0, .alloc .done⟩, ⟨0, .copy true⟩, ⟨0, .wait 100⟩] ++ List.replicate 4 ⟨0, .run⟩ ++
        [⟨0, .copy true⟩] ++ List.replicate 73 ⟨0, .run⟩ ++ [⟨0, .exit 7⟩] ++
        List.replicate 272 ⟨0, .run⟩ ++ [⟨0, .copy true⟩, ⟨0, .run⟩])).map
      (fun m => (m.exits, m.reaps.map Reap.stored)) = some ([(1, 7)], [some 7]) := by
    decide +kernel
  obtain ⟨m, hrun, hm⟩ := exec_reaches hexec
  simp only [Prod.mk.injEq] at hm
  exact ⟨m, hrun, hm.1, hm.2, family_tree hrun⟩

/-- A process other than `initproc` that sleeps in `wait` has no zombie child. -/
theorem waits_for_children (hrun : Run step (Cpus n) boot m) :
    ¬∃ p i, p ≠ m.initproc ∧ (m.slot p).state = .sleeping ∧ (m.slot p).chan = some (.proc p) ∧
      m.lock (.proc p) = none ∧ (m.slot i).parent = some p ∧ (m.slot i).state = .zombie := by
  rintro ⟨p, i, hp, hsleep, hchan, -, hparent, hzombie⟩
  exact (kin_run hrun).quiet p hp ⟨hsleep, hchan⟩ i hparent hzombie

/-- Process 1 forks process 2 and waits for it. -/
theorem waits_for_children_asleep : ∃ m, Run step (Cpus 1) boot m ∧ 1 ≠ m.initproc ∧
    (m.slot 1).state = .sleeping ∧ (m.slot 1).chan = some (.proc 1) ∧ m.lock (.proc 1) = none ∧
    (m.slot 2).parent = some 1 ∧ (m.slot 2).state ≠ .zombie := by
  have hexec : (exec step (fun _ a => a.cpu < 1) boot
      (List.replicate 5 ⟨0, .run⟩ ++ [⟨0, .fork⟩] ++ List.replicate 4 ⟨0, .run⟩ ++
        [⟨0, .alloc .done⟩, ⟨0, .copy true⟩, ⟨0, .timer⟩] ++ List.replicate 11 ⟨0, .run⟩ ++
        [⟨0, .fork⟩] ++ List.replicate 6 ⟨0, .run⟩ ++
        [⟨0, .alloc .done⟩, ⟨0, .copy true⟩, ⟨0, .wait 100⟩] ++ List.replicate 5 ⟨0, .run⟩ ++
        [⟨0, .copy true⟩] ++ List.replicate 67 ⟨0, .run⟩)).map
      (fun m => (m.initproc, (m.slot 1).state, (m.slot 1).chan, m.lock (.proc 1),
        (m.slot 2).parent)) = some (0, .sleeping, some (.proc 1), none, some 1) := by
    decide +kernel
  obtain ⟨m, hrun, hm⟩ := exec_reaches hexec
  simp only [Prod.mk.injEq] at hm
  obtain ⟨hinit, hsleep, hchan, hlock, hparent⟩ := hm
  have hinit : 1 ≠ m.initproc := by rw [hinit]; decide
  refine ⟨m, hrun, hinit, hsleep, hchan, hlock, hparent, fun hzombie => ?_⟩
  exact waits_for_children hrun ⟨1, 2, hinit, hsleep, hchan, hlock, hparent, hzombie⟩

end Result

end Sched
end Xv6
