import Mathlib.Tactic
import Xv6.Proc.Table

/-!
# Hygiene of the process table

Main results:

- Theorem {lit}`inv_step`: the table invariant is kept by every step in which no
  trapframe allocation fails and `kill` finds neither a free slot nor a zombie.
- Theorem {lit}`table_hygiene`: in every such run free slots are blank, pids are
  distinct, `kill` touches only the process it names, and children are born alive.
- Theorem {lit}`child_born_killed`: `kill(0)` dooms a later child, a failed `fork`
  leaves a pid behind, and `kill` succeeds on a zombie.
-/

namespace Xv6
namespace Proc

open Lib Table Function

/-! ## Hygiene -/

/-- The process has no open file and no current directory. -/
def NoFiles (x : Proc) : Prop :=
  (∀ fd < nofile, x.ofile fd = none) ∧ x.cwd = none

/-- A blank slot. -/
structure Clean (x : Proc) : Prop where
  pid : x.pid = 0
  killed : x.killed = 0
  parent : x.parent = none
  chan : x.chan = none
  sz : x.sz = 0
  trapframe : x.trapframe = none
  pagetable : x.pagetable = none
  files : NoFiles x

/-- A `fork` at this place is setting up slot `i`, whose lock it holds. -/
@[simp]
def Setup (c : Call) (i : Nat) : Prop :=
  c = .forkTrapframe i ∨ c = .forkPagetable i ∨ c = .forkCopy i

/-- The process exists and has not exited. -/
def Live (s : Procstate) : Prop :=
  s ≠ .unused ∧ s ≠ .zombie

/-- In user space or in another system call. -/
def User (c : Call) : Prop :=
  ∃ ret, c = .user ret

/-- The slot has been given a pid. -/
def Occupied (t : Table) (i : Nat) : Prop :=
  (t.proc i).state ≠ .unused ∨ ∃ p, Setup (t.call p) i

/-- Free slots are blank, and pids are distinct unless too many have been used. -/
structure Hygienic (t : Table) : Prop where
  clean : ∀ i, (t.proc i).state = .unused → (∀ p, ¬Setup (t.call p) i) → Clean (t.proc i)
  distinct : t.handed < 2 ^ 31 - 1 → ∀ i j, (t.proc i).state ≠ .unused →
    (t.proc j).state ≠ .unused → (t.proc i).pid = (t.proc j).pid → i = j

/-! ## The invariant -/

/-- What holds at each place of a system call. -/
def CallOk (t : Table) (p : Nat) : Prop :=
  match t.call p with
  | .forkTrapframe i => t.lock i = some p ∧ (t.proc i).state = .unused ∧
    Clean { t.proc i with pid := 0 }
  | .forkPagetable i => t.lock i = some p ∧ (t.proc i).state = .unused ∧
    Clean { t.proc i with pid := 0, trapframe := none }
  | .forkCopy i => t.lock i = some p ∧ (t.proc i).state = .unused ∧
    Clean { t.proc i with pid := 0, trapframe := none, pagetable := none }
  | .exitFile _ fd => ∀ fd' < fd, (t.proc p).ofile fd' = none
  | .exitWakeInit _ | .exitParent _ | .exitLockParent _ _ | .exitLockSelf _ _
  | .exitReparent _ _ _ => NoFiles (t.proc p)
  | _ => True

/-- The places of `exit` after it has closed the files. -/
def Call.exiting : Call → Bool
  | .exitWakeInit _ | .exitParent _ | .exitLockParent _ _ | .exitLockSelf _ _
  | .exitReparent _ _ _ => true
  | _ => false

/-- The places where nothing has to be known. -/
def Call.plain : Call → Bool
  | .user _ | .fork _ | .kill _ _ | .waitLock | .wait _ _ | .waitChild _ | .waitSleep => true
  | _ => false

/-- Pids in use were handed out by `allocpid`, each to one slot. -/
structure Pids (t : Table) : Prop where
  next : t.nextpid = t.handed + 1
  range : ∀ i, Occupied t i → 1 ≤ (t.proc i).pid ∧ (t.proc i).pid ≤ t.handed
  inj : ∀ i j, Occupied t i → Occupied t j → (t.proc i).pid = (t.proc j).pid → i = j

/-- The invariant. -/
structure Inv (t : Table) : Prop where
  calls : ∀ p, CallOk t p
  live : ∀ p, User (t.call p) ∨ Live (t.proc p).state
  clean : ∀ i, (t.proc i).state = .unused → (∀ p, ¬Setup (t.call p) i) → Clean (t.proc i)
  zombie : ∀ i, (t.proc i).state = .zombie → NoFiles (t.proc i)
  pids : t.handed < 2 ^ 31 - 1 → Pids t

/-- What the invariant says of slots and pids. -/
theorem Inv.hygienic {t : Table} (hinv : Inv t) : Hygienic t where
  clean := hinv.clean
  distinct := fun hhanded i j hi hj => (hinv.pids hhanded).inj i j (Or.inl hi) (Or.inl hj)

section Lemmas

variable {t t' : Table} {p q i : Nat}

/-- A slot that is being set up is free and locked. -/
theorem Inv.setup (hinv : Inv t) (hsetup : Setup (t.call p) i) :
    t.lock i = some p ∧ (t.proc i).state = .unused := by
  have hok := hinv.calls p
  rcases hsetup with h | h | h <;> rw [CallOk, h] at hok <;> exact ⟨hok.1, hok.2.1⟩

/-- A slot with a free lock is not being set up. -/
theorem Inv.not_setup_of_unlocked (hinv : Inv t) (hlock : t.lock i = none) :
    ¬Setup (t.call p) i := by
  intro hsetup
  simp [(hinv.setup hsetup).1] at hlock

/-- A slot in use is not being set up. -/
theorem Inv.not_setup_of_used (hinv : Inv t) (hused : (t.proc i).state ≠ .unused) :
    ¬Setup (t.call p) i := fun hsetup => hused (hinv.setup hsetup).2

/-- Only one process sets up a slot. -/
theorem Inv.setup_unique (hinv : Inv t) (hp : Setup (t.call p) i) (hq : Setup (t.call q) i) :
    p = q := by
  have hlock := (hinv.setup hp).1
  rw [(hinv.setup hq).1] at hlock
  exact (Option.some.inj hlock).symm

/-- A process sets up one slot. -/
theorem Setup.eq {c : Call} {j : Nat} (hi : Setup c i) (hj : Setup c j) : i = j := by
  rcases hi with h | h | h <;> rcases hj with h' | h' | h' <;> simp_all

/-- A process in user space sets up none. -/
theorem not_setup_user {c : Call} (huser : User c) : ¬Setup c i := by
  obtain ⟨ret, rfl⟩ := huser
  simp

/-- The place of a process other than `p` is not affected by a change of slot `i`
that nobody else sets up and that leaves the files of `i` alone. -/
theorem CallOk.frame (hok : CallOk t q) (hcall : t'.call q = t.call q)
    (hlock : ∀ j, Setup (t.call q) j → t'.lock j = t.lock j ∧ t'.proc j = t.proc j)
    (hfiles : User (t.call q) ∨
      (t'.proc q).ofile = (t.proc q).ofile ∧ (t'.proc q).cwd = (t.proc q).cwd) :
    CallOk t' q := by
  unfold CallOk at hok ⊢
  rw [hcall]
  cases hc : t.call q <;> simp only [hc] at hok ⊢ <;> try trivial
  case forkTrapframe j =>
    obtain ⟨h₁, h₂⟩ := hlock j (by simp [hc])
    rwa [h₁, h₂]
  case forkPagetable j =>
    obtain ⟨h₁, h₂⟩ := hlock j (by simp [hc])
    rwa [h₁, h₂]
  case forkCopy j =>
    obtain ⟨h₁, h₂⟩ := hlock j (by simp [hc])
    rwa [h₁, h₂]
  all_goals
    obtain ⟨h₁, h₂⟩ : (t'.proc q).ofile = (t.proc q).ofile ∧ (t'.proc q).cwd = (t.proc q).cwd :=
      hfiles.resolve_left (by simp [User, hc])
    simpa only [NoFiles, h₁, h₂] using hok

/-- Pids stay in order if no slot becomes occupied and no occupied one changes
its pid. -/
theorem Pids.frame (hpids : Pids t) (hnext : t'.nextpid = t.nextpid)
    (hhanded : t'.handed = t.handed)
    (hocc : ∀ i, Occupied t' i → Occupied t i ∧ (t'.proc i).pid = (t.proc i).pid) : Pids t' := by
  constructor
  · rw [hnext, hhanded]
    exact hpids.next
  · intro i hi
    obtain ⟨hold, hpid⟩ := hocc i hi
    rw [hpid, hhanded]
    exact hpids.range i hold
  · intro i j hi hj heq
    obtain ⟨hi, hpi⟩ := hocc i hi
    obtain ⟨hj, hpj⟩ := hocc j hj
    rw [hpi, hpj] at heq
    exact hpids.inj i j hi hj heq

/-- A step of `p` that changes slot `i` to `x` and goes on at `c`. -/
structure Local (t t' : Table) (p i : Nat) (x : Proc) (c : Call) : Prop where
  proc : t'.proc = update t.proc i x
  call : t'.call = update t.call p c
  lock : ∀ q j, q ≠ p → Setup (t.call q) j → t'.lock j = t.lock j
  alone : ∀ q, q ≠ p → ¬Setup (t.call q) i
  files : i = p ∨ User (t.call i) ∨ (x.ofile = (t.proc i).ofile ∧ x.cwd = (t.proc i).cwd)
  ok : CallOk t' p
  live : i ≠ p → User (t.call i) ∨ Live x.state
  own : User c ∨ Live (t'.proc p).state
  clean : x.state = .unused → ¬Setup c i → Clean x
  setup : ∀ j, j ≠ i → (Setup (t.call p) j ↔ Setup c j)
  zombie : x.state = .zombie → NoFiles x

/-- Such a step keeps the invariant. -/
theorem Inv.of_local {x : Proc} {c : Call} (hinv : Inv t) (h : Local t t' p i x c)
    (hpids : t'.handed < 2 ^ 31 - 1 → Pids t') : Inv t' := by
  have hother : ∀ {j}, j ≠ i → t'.proc j = t.proc j := fun hj => by rw [h.proc, update_of_ne hj]
  have hcalls : ∀ {q}, q ≠ p → t'.call q = t.call q := fun hq => by rw [h.call, update_of_ne hq]
  constructor
  · intro q
    obtain rfl | hq := eq_or_ne q p
    · exact h.ok
    · refine (hinv.calls q).frame (hcalls hq) (fun j hj => ⟨h.lock q j hq hj, hother ?_⟩) ?_
      · rintro rfl
        exact h.alone q hq hj
      · obtain rfl | hqi := eq_or_ne q i
        · rw [h.proc, update_self]
          exact h.files.resolve_left hq
        · rw [hother hqi]
          exact Or.inr ⟨rfl, rfl⟩
  · intro q
    obtain rfl | hq := eq_or_ne q p
    · rw [h.call, update_self]
      exact h.own
    · rw [hcalls hq]
      obtain rfl | hqi := eq_or_ne q i
      · rw [h.proc, update_self]
        exact h.live hq
      · rw [hother hqi]
        exact hinv.live q
  · intro j hj hnone
    obtain rfl | hji := eq_or_ne j i
    · rw [h.proc, update_self] at hj ⊢
      exact h.clean hj (by simpa [h.call] using hnone p)
    · rw [hother hji] at hj ⊢
      refine hinv.clean j hj fun q hq => ?_
      obtain rfl | hqp := eq_or_ne q p
      · exact hnone q (by simpa [h.call] using (h.setup j hji).mp hq)
      · exact hnone q (by rwa [hcalls hqp])
  · intro j hj
    obtain rfl | hji := eq_or_ne j i
    · rw [h.proc, update_self] at hj ⊢
      exact h.zombie hj
    · rw [hother hji] at hj ⊢
      exact hinv.zombie j hj
  · exact hpids

/-- ... without a new pid. -/
theorem Inv.of_keep {x : Proc} {c : Call} (hinv : Inv t) (h : Local t t' p i x c)
    (hpid : x.state ≠ .unused ∨ Setup c i → Occupied t i ∧ x.pid = (t.proc i).pid)
    (hnext : t'.nextpid = t.nextpid) (hhanded : t'.handed = t.handed) : Inv t' := by
  refine hinv.of_local h fun hlt => ?_
  refine (hinv.pids (hhanded ▸ hlt)).frame hnext hhanded fun j hj => ?_
  obtain rfl | hji := eq_or_ne j i
  · rw [h.proc, update_self]
    refine hpid ?_
    rcases hj with hj | ⟨q, hq⟩
    · exact Or.inl (by simpa [h.proc] using hj)
    · obtain rfl | hqp := eq_or_ne q p
      · exact Or.inr (by simpa [h.call] using hq)
      · rw [h.call, update_of_ne hqp] at hq
        exact (h.alone q hqp hq).elim
  · rw [h.proc, update_of_ne hji]
    refine ⟨?_, rfl⟩
    rcases hj with hj | ⟨q, hq⟩
    · exact Or.inl (by simpa [h.proc, hji] using hj)
    · obtain rfl | hqp := eq_or_ne q p
      · rw [h.call, update_self] at hq
        exact Or.inr ⟨q, (h.setup j hji).mpr hq⟩
      · rw [h.call, update_of_ne hqp] at hq
        exact Or.inr ⟨q, hq⟩

/-- A change of a used slot that keeps it live or a zombie, keeps its pid, and
keeps its files unless it is in user space. -/
structure Touch (t : Table) (i : Nat) (x : Proc) : Prop where
  used : (t.proc i).state ≠ .unused
  state : (Live (t.proc i).state ∧ Live x.state) ∨ x.state = (t.proc i).state
  pid : x.pid = (t.proc i).pid
  files : (Live x.state ∧ User (t.call i)) ∨
    (x.ofile = (t.proc i).ofile ∧ x.cwd = (t.proc i).cwd)

/-- The slot stays in use, and alive or dead. -/
theorem Touch.state_iff {x : Proc} (h : Touch t i x) :
    x.state ≠ .unused ∧ (Live x.state ↔ Live (t.proc i).state) := by
  rcases h.state with ⟨hold, hnew⟩ | heq
  · exact ⟨hnew.1, by simp [hold, hnew]⟩
  · rw [heq]
    exact ⟨h.used, Iff.rfl⟩

/-- Such a change keeps the invariant. -/
theorem Inv.touch {x : Proc} (hinv : Inv t) (h : Touch t i x) : Inv (t.setProc i x) := by
  have hnot : ∀ q, ¬Setup (t.call q) i := fun q => hinv.not_setup_of_used h.used
  have hself : (t.setProc i x).proc i = x := by simp
  refine hinv.of_keep (p := i) ⟨rfl, (update_eq_self i t.call).symm, fun _ _ _ _ => rfl,
    fun q _ => hnot q, Or.inl rfl, ?_, fun hne => (hne rfl).elim, ?_,
    fun hunused => (h.state_iff.1 hunused).elim, fun _ _ => Iff.rfl, fun hz => ?_⟩
    (fun _ => ⟨Or.inl h.used, h.pid⟩) rfl rfl
  · refine (hinv.calls i).frame rfl (fun j hj => ⟨rfl, ?_⟩) ?_
    · apply update_of_ne
      rintro rfl
      exact hnot j hj
    · rw [hself]
      exact h.files.imp (fun hu => hu.2) id
  · rw [hself, h.state_iff.2]
    exact hinv.live i
  · have hold : (t.proc i).state = .zombie := by
      rcases h.state with ⟨-, hnew⟩ | heq
      · exact (hnew.2 hz).elim
      · rw [← heq, hz]
    rcases h.files with ⟨hlive, -⟩ | ⟨h₁, h₂⟩
    · exact (hlive.2 hz).elim
    · simpa only [NoFiles, h₁, h₂] using hinv.zombie i hold

/-- A change of locks that leaves those of slots being set up. -/
theorem Inv.setLock {l : Nat → Option Nat} (hinv : Inv t)
    (hl : ∀ q j, Setup (t.call q) j → l j = t.lock j) : Inv { t with lock := l } where
  calls := fun q => (hinv.calls q).frame rfl (fun j hj => ⟨hl q j hj, rfl⟩) (Or.inr ⟨rfl, rfl⟩)
  live := hinv.live
  clean := hinv.clean
  zombie := hinv.zombie
  pids := fun h => (hinv.pids h).frame rfl rfl fun _ hi => ⟨hi, rfl⟩

/-- The free pages do not matter. -/
theorem Inv.setFreelist {pages : List Nat} (hinv : Inv t) : Inv { t with freelist := pages } where
  calls := fun q => (hinv.calls q).frame rfl (fun _ _ => ⟨rfl, rfl⟩) (Or.inr ⟨rfl, rfl⟩)
  live := hinv.live
  clean := hinv.clean
  zombie := hinv.zombie
  pids := fun h => (hinv.pids h).frame rfl rfl fun _ hi => ⟨hi, rfl⟩

/-- A process that sets up no slot goes on to a place where it sets up none. -/
theorem Inv.setCall {c : Call} (hinv : Inv t) (hlive : User c ∨ Live (t.proc p).state)
    (hold : ∀ j, ¬Setup (t.call p) j) (hnew : ∀ j, ¬Setup c j) (hok : CallOk (t.setCall p c) p) :
    Inv (t.setCall p c) where
  calls q := by
    obtain rfl | hq := eq_or_ne q p
    · exact hok
    · exact (hinv.calls q).frame (update_of_ne hq ..) (fun _ _ => ⟨rfl, rfl⟩) (Or.inr ⟨rfl, rfl⟩)
  live q := by
    obtain rfl | hq := eq_or_ne q p
    · simpa using hlive
    · simpa [hq] using hinv.live q
  clean i hi hnone := by
    refine hinv.clean i hi fun q hq => hnone q ?_
    obtain rfl | hqp := eq_or_ne q p
    · exact (hold i hq).elim
    · simpa [hqp] using hq
  zombie := hinv.zombie
  pids hhanded := by
    refine (hinv.pids hhanded).frame rfl rfl ?_
    rintro i (hi | ⟨q, hq⟩)
    · exact ⟨Or.inl hi, rfl⟩
    · obtain rfl | hqp := eq_or_ne q p
      · exact (hnew i (by simpa using hq)).elim
      · exact ⟨Or.inr ⟨q, by simpa [hqp] using hq⟩, rfl⟩

/-- ... where nothing has to be known. -/
theorem Inv.goOn {c : Call} (hinv : Inv t) (hlive : User c ∨ Live (t.proc p).state)
    (hold : ∀ j, ¬Setup (t.call p) j) (hc : c.plain = true) : Inv (t.setCall p c) := by
  refine hinv.setCall hlive hold (fun j => ?_) ?_ <;> cases c <;> simp_all [Call.plain, CallOk]

/-- A critical section that leaves a free slot alone. -/
theorem Inv.atomically {f : Proc → Proc} (hinv : Inv t) (hstep : t.atomically i f = some t')
    (hf : f (t.proc i) = t.proc i ∨ Touch t i (f (t.proc i))) :
    Inv t' ∧ t'.call = t.call ∧ t'.lock = t.lock := by
  obtain ⟨-, ⟨⟩⟩ := Option.ite_none_right_eq_some.mp hstep
  refine ⟨?_, rfl, rfl⟩
  rcases hf with hsame | htouch
  · rw [hsame, Table.setProc, update_eq_self]
    exact hinv
  · exact hinv.touch htouch

/-- Acquiring a lock keeps the invariant. -/
theorem Inv.acquire (hinv : Inv t) (hstep : t.acquire p i = some t') :
    Inv t' ∧ t'.proc = t.proc ∧ t'.call = t.call ∧ t.lock i = none := by
  obtain ⟨hlock, ⟨⟩⟩ := Option.ite_none_right_eq_some.mp hstep
  refine ⟨hinv.setLock fun q j hj => ?_, rfl, rfl, hlock⟩
  apply update_of_ne
  rintro rfl
  exact hinv.not_setup_of_unlocked hlock hj

/-- Releasing the lock of a slot that is not being set up. -/
theorem Inv.release (hinv : Inv t) (hstep : t.release p i = some t')
    (hnot : ¬Setup (t.call p) i) : Inv t' ∧ t'.proc = t.proc ∧ t'.call = t.call := by
  obtain ⟨hlock, ⟨⟩⟩ := Option.ite_none_right_eq_some.mp hstep
  refine ⟨hinv.setLock fun q j hj => ?_, rfl, rfl⟩
  apply update_of_ne
  rintro rfl
  have hq := (hinv.setup hj).1
  rw [hlock] at hq
  cases hq
  exact hnot hj

end Lemmas

/-! ## Preservation -/

section Steps

variable {t t' : Table} {p : Nat}

/-- A running process is alive. -/
theorem live_running {x : Proc} (hx : x.state = .running) : Live x.state := by
  rw [hx]
  exact ⟨by decide, by decide⟩

/-- The effect of `wakeup` and `wakeup1`. -/
theorem touch_wake {i : Nat} {b : Prop} [Decidable b]
    (hb : b → (t.proc i).state = .sleeping) :
    (if b then { t.proc i with state := .runnable } else t.proc i) = t.proc i ∨
      Touch t i (if b then { t.proc i with state := .runnable } else t.proc i) := by
  split
  next h =>
    right
    have hsleep := hb h
    exact ⟨by simp [hsleep], Or.inl ⟨by simp [Live, hsleep], by simp [Live]⟩, rfl,
      Or.inr ⟨rfl, rfl⟩⟩
  · exact Or.inl rfl

/-- The scheduler. -/
theorem inv_run (hinv : Inv t) (hstep : runProc t p = some t') : Inv t' := by
  obtain ⟨⟨hlock, hstate⟩, hstep⟩ := Option.ite_none_right_eq_some.mp hstep
  have hinv' : Inv (t.setProc p { t.proc p with state := .running, chan := none }) := by
    apply hinv.touch
    refine ⟨by simp [hstate], Or.inl ⟨by simp [Live, hstate], by simp [Live]⟩, rfl, ?_⟩
    exact Or.inr ⟨rfl, rfl⟩
  split at hstep
  next hcall =>
    obtain ⟨t₁, hacq, rfl⟩ := Option.map_eq_some_iff.mp hstep
    obtain ⟨hinv₁, hproc, hcalls, -⟩ := hinv'.acquire hacq
    refine hinv₁.goOn ?_ ?_ rfl
    · right
      rw [hproc]
      simp [Live]
    · rw [hcalls, hcall]
      simp
  · cases hstep
    exact hinv'

/-- `allocpid` for a free slot. -/
theorem pids_handed {i : Nat} (hpids : Pids t) (hhanded : t.handed + 1 < 2 ^ 31 - 1)
    (hproc : t'.proc = update t.proc i { t.proc i with pid := t.nextpid })
    (hcall : t'.call = update t.call p (.forkTrapframe i))
    (hnextpid : t'.nextpid = int (t.nextpid + 1)) (hcount : t'.handed = t.handed + 1) :
    Pids t' := by
  have hnext := hpids.next
  -- A slot other than `i` is occupied if and only if it was.
  have hocc : ∀ j, j ≠ i → Occupied t' j → Occupied t j := by
    rintro j hj (hused | ⟨q, hq⟩)
    · left
      simpa [hproc, hj] using hused
    · right
      refine ⟨q, ?_⟩
      rw [hcall] at hq
      obtain rfl | hqp := eq_or_ne q p
      · simp [Ne.symm hj] at hq
      · simpa [hqp] using hq
  constructor
  · rw [hnextpid, hcount, hnext, int_of_lt (by omega) (by omega)]
    push_cast
    rfl
  · intro j hj
    rw [hproc, hcount]
    obtain rfl | hji := eq_or_ne j i
    · simp only [update_self, hnext]
      push_cast
      omega
    · have := hpids.range j (hocc j hji hj)
      simp only [update_of_ne hji]
      push_cast
      omega
  · intro j k hj hk heq
    rw [hproc] at heq
    by_cases hji : j = i
    · by_cases hki : k = i
      · rw [hji, hki]
      · have := hpids.range k (hocc k hki hk)
        subst hji
        simp only [update_self, update_of_ne hki] at heq
        omega
    · have hrange := hpids.range j (hocc j hji hj)
      obtain rfl | hki := eq_or_ne k i
      · simp only [update_self, update_of_ne hji] at heq
        omega
      · simp only [update_of_ne hji, update_of_ne hki] at heq
        exact hpids.inj j k (hocc j hji hj) (hocc k hki hk) heq

/-- A free slot's process is in no system call. -/
theorem Inv.user_of_dead {i : Nat} (hinv : Inv t) (hdead : ¬Live (t.proc i).state) :
    User (t.call i) :=
  (hinv.live i).resolve_right hdead

/-- The loop of `allocproc`. -/
theorem inv_allocprocScan {i : Nat} (hinv : Inv t) (hrun : (t.proc p).state = .running)
    (hcall : t.call p = .fork i) (hstep : allocprocScan t p i = some t') : Inv t' := by
  have hold : ∀ j, ¬Setup (t.call p) j := by simp [hcall]
  simp only [allocprocScan] at hstep
  split at hstep
  · split at hstep
    next hlock =>
      have hnone : ∀ q, ¬Setup (t.call q) i := fun q => hinv.not_setup_of_unlocked hlock
      split at hstep
      next hunused =>
        cases hstep
        have hne : i ≠ p := by
          rintro rfl
          simp [hunused] at hrun
        have hclean := hinv.clean i hunused hnone
        refine hinv.of_local (c := .forkTrapframe i) ⟨rfl, rfl, fun q j _ hj => ?_,
          fun q _ => hnone q, Or.inr (Or.inr ⟨rfl, rfl⟩), ?_, fun _ => Or.inl ?_, Or.inr ?_,
          fun _ hnot => (hnot (Or.inl rfl)).elim,
          fun j hj => iff_of_false (hold j) fun h => hj (h.eq (Or.inl rfl)), by simp [hunused]⟩
          fun hhanded => ?_
        · apply update_of_ne
          rintro rfl
          exact hnone q hj
        · simp only [CallOk, update_self]
          exact ⟨trivial, hunused, by rw [← hclean.pid]; exact hclean⟩
        · exact hinv.user_of_dead (by simp [Live, hunused])
        · simp only [update_of_ne hne.symm]
          exact live_running hrun
        · exact pids_handed (hinv.pids (by simp only at hhanded; omega)) hhanded rfl rfl rfl rfl
      · cases hstep
        exact hinv.goOn (Or.inr (live_running hrun)) hold rfl
    · cases hstep
  · cases hstep
    exact hinv.goOn (Or.inl ⟨-1, rfl⟩) hold rfl

/-- A slot that `p` sets up is not that of a process in a system call. -/
theorem Inv.setup_user {np : Nat} (hinv : Inv t) (hsetup : Setup (t.call p) np) :
    User (t.call np) :=
  hinv.user_of_dead (by simp [Live, (hinv.setup hsetup).2])

/-- The slot is not the caller's own. -/
theorem Inv.setup_ne {np : Nat} (hinv : Inv t) (hsetup : Setup (t.call p) np) : np ≠ p := by
  rintro rfl
  exact not_setup_user (hinv.setup_user hsetup) hsetup

/-- `allocproc` goes on with the slot it sets up. -/
theorem Inv.advance {np : Nat} {x : Proc} {c : Call} (hinv : Inv t)
    (hrun : (t.proc p).state = .running) (hsetup : Setup (t.call p) np) (hc : Setup c np)
    (hstate : x.state = .unused) (hpid : x.pid = (t.proc np).pid)
    (hok : CallOk ((t.setProc np x).setCall p c) p) : Inv ((t.setProc np x).setCall p c) := by
  have hne := hinv.setup_ne hsetup
  refine hinv.of_keep ⟨rfl, rfl, fun _ _ _ _ => rfl,
    fun q hq hq' => hq (hinv.setup_unique hq' hsetup), Or.inr (Or.inl (hinv.setup_user hsetup)),
    hok, fun _ => Or.inl (hinv.setup_user hsetup), Or.inr ?_, fun _ hnot => (hnot hc).elim,
    fun j hj => ⟨fun h => (hj (h.eq hsetup)).elim, fun h => (hj (h.eq hc)).elim⟩,
    by simp [hstate]⟩ (fun _ => ⟨Or.inr ⟨p, hsetup⟩, hpid⟩) rfl rfl
  simpa [hne.symm] using live_running hrun

/-- `fork` is done with the slot it has set up: either it has freed the slot, or
the slot has become a process. -/
theorem Inv.finishSetup {np : Nat} {x : Proc} {ret : Int} (hinv : Inv t)
    (hsetup : Setup (t.call p) np) (hx : x.state = .unused → Clean x)
    (hused : x.state ≠ .unused → x.state ≠ .zombie ∧ x.pid = (t.proc np).pid) :
    Inv { t with
      proc := update t.proc np x
      lock := update t.lock np none
      call := update t.call p (.user ret) } := by
  refine hinv.of_keep ⟨rfl, rfl, fun q j hq hj => ?_,
    fun q hq hq' => hq (hinv.setup_unique hq' hsetup), Or.inr (Or.inl (hinv.setup_user hsetup)),
    by simp [CallOk], fun _ => Or.inl (hinv.setup_user hsetup), Or.inl ⟨ret, rfl⟩,
    fun hstate _ => hx hstate, fun j hj => ⟨fun h => (hj (h.eq hsetup)).elim, by simp⟩,
    fun hz => ((hused (by simp [hz])).1 hz).elim⟩ (fun h => ⟨Or.inr ⟨p, hsetup⟩, ?_⟩) rfl rfl
  · apply update_of_ne
    rintro rfl
    exact hq (hinv.setup_unique hj hsetup)
  · exact (hused (h.resolve_right (by simp))).2

/-- The files of a slot that is being set up. -/
theorem Inv.setup_files {np : Nat} (hinv : Inv t) (hsetup : Setup (t.call p) np) :
    NoFiles (t.proc np) ∧ (t.proc np).killed = 0 := by
  have hok := hinv.calls p
  rcases hsetup with h | h | h <;> rw [CallOk, h] at hok
  · exact ⟨hok.2.2.files, hok.2.2.killed⟩
  · exact ⟨hok.2.2.files, hok.2.2.killed⟩
  · exact ⟨hok.2.2.files, hok.2.2.killed⟩

/-- `freeproc` leaves a blank slot. -/
theorem clean_freeproc {x : Proc} (hx : NoFiles x) : Clean x.freeproc :=
  ⟨rfl, rfl, rfl, rfl, rfl, rfl, rfl, hx⟩

/-- The error exits of `fork`. -/
theorem inv_forkFail {np : Nat} (hinv : Inv t) (hsetup : Setup (t.call p) np)
    (hstep : forkFail t p np = some t') : Inv t' := by
  obtain ⟨t₁, hrel, rfl⟩ := Option.map_eq_some_iff.mp hstep
  obtain ⟨-, ⟨⟩⟩ := Option.ite_none_right_eq_some.mp hrel
  exact hinv.finishSetup hsetup (fun _ => clean_freeproc (hinv.setup_files hsetup).1)
    fun h => (h rfl).elim

/-- `allocproc` finds a page for the trapframe. -/
theorem inv_allocTrapframe {np : Nat} (hinv : Inv t) (hrun : (t.proc p).state = .running)
    (hcall : t.call p = .forkTrapframe np) (hfree : t.freelist ≠ [])
    (hstep : allocTrapframe t p np = some t') : Inv t' := by
  have hok := hinv.calls p
  rw [CallOk, hcall] at hok
  obtain ⟨hlock, hunused, hclean⟩ := hok
  simp only [allocTrapframe] at hstep
  split at hstep
  next hnil =>
    exact (hfree hnil).elim
  next pa rest _ =>
    cases hstep
    refine Inv.setFreelist (hinv.advance (x := { t.proc np with trapframe := some pa })
      (c := .forkPagetable np) hrun (by simp [hcall]) (by simp) hunused rfl ?_)
    simp only [CallOk, Table.setCall, setProc, update_self]
    exact ⟨hlock, hunused, hclean.pid, hclean.killed, hclean.parent, hclean.chan, hclean.sz,
      rfl, hclean.pagetable, hclean.files⟩

/-- `allocproc` makes a page table. -/
theorem inv_allocPagetable {np : Nat} {result : Option Nat} (hinv : Inv t)
    (hrun : (t.proc p).state = .running) (hcall : t.call p = .forkPagetable np)
    (hstep : allocPagetable t p np result = some t') : Inv t' := by
  have hok := hinv.calls p
  rw [CallOk, hcall] at hok
  obtain ⟨hlock, hunused, hclean⟩ := hok
  cases result with
  | none => exact inv_forkFail hinv (by simp [hcall]) hstep
  | some pt =>
    cases hstep
    refine hinv.advance (x := { t.proc np with pagetable := some pt }) hrun
      (by simp [hcall]) (by simp) hunused rfl ?_
    simp only [CallOk, Table.setCall, setProc, update_self]
    exact ⟨hlock, hunused, hclean.pid, hclean.killed, hclean.parent, hclean.chan, hclean.sz,
      hclean.trapframe, rfl, hclean.files⟩

/-- What a successful `fork` does. -/
theorem forkCopy_eq {np : Nat} (hstep : forkCopy t p np true = some t') :
    t' = { t.setCall np (.user 0) with
      proc := update t.proc np (child (t.proc p) (t.proc np) p)
      lock := update t.lock np none
      call := update (t.setCall np (.user 0)).call p (.user (t.proc np).pid) } := by
  simp only [forkCopy, if_true] at hstep
  obtain ⟨t₁, hrel, rfl⟩ := Option.map_eq_some_iff.mp hstep
  obtain ⟨-, ⟨⟩⟩ := Option.ite_none_right_eq_some.mp hrel
  simp [Table.setCall, child]

/-- `fork` after `allocproc`. -/
theorem inv_forkCopy {np : Nat} {ok : Bool} (hinv : Inv t) (hcall : t.call p = .forkCopy np)
    (hstep : forkCopy t p np ok = some t') : Inv t' := by
  have hsetup : Setup (t.call p) np := by simp [hcall]
  cases ok with
  | false => exact inv_forkFail hinv hsetup hstep
  | true =>
    rw [forkCopy_eq hstep]
    have hne := hinv.setup_ne hsetup
    have huser := hinv.setup_user hsetup
    have hinv' : Inv (t.setCall np (.user 0)) :=
      hinv.goOn (Or.inl ⟨0, rfl⟩) (fun j => not_setup_user huser) rfl
    apply hinv'.finishSetup
    · simpa [hne.symm] using hsetup
    · simp [child]
    · intro _
      exact ⟨by simp [child], rfl⟩

/-- `kill` of a slot in use. -/
theorem touch_kill {i : Nat} (hused : (t.proc i).state ≠ .unused) :
    Touch t i (t.proc i).kill := by
  refine ⟨hused, ?_, rfl, Or.inr ⟨rfl, rfl⟩⟩
  simp only [Proc.kill]
  split
  next hsleep =>
    left
    simp [Live, hsleep]
  · right
    trivial

/-- Under the rule `kill` finds no free slot. -/
theorem Inv.used_of_pid {pid : Int} {i : Nat} (hinv : Inv t) (hlock : t.lock i = none)
    (hpid : (t.proc i).pid = pid) (hrule : (t.proc i).state = .unused → pid ≠ 0) :
    (t.proc i).state ≠ .unused := by
  intro hunused
  have hclean := hinv.clean i hunused fun q => hinv.not_setup_of_unlocked hlock
  exact hrule hunused (hpid.symm.trans hclean.pid)

/-- The loop of `kill`. -/
theorem inv_killScan {pid : Int} {i : Nat} (hinv : Inv t) (hrun : (t.proc p).state = .running)
    (hcall : t.call p = .kill pid i) (hrule : i < nproc → (t.proc i).state = .unused → pid ≠ 0)
    (hstep : killScan t p pid i = some t') : Inv t' := by
  have hold : ∀ j, ¬Setup (t.call p) j := by simp [hcall]
  simp only [killScan] at hstep
  split at hstep
  next hi =>
    split at hstep
    next hlock =>
      split at hstep
      next hpid =>
        cases hstep
        have hused := hinv.used_of_pid hlock hpid (hrule hi)
        exact (hinv.touch (touch_kill hused)).goOn (Or.inl ⟨0, rfl⟩) hold rfl
      · cases hstep
        exact hinv.goOn (Or.inr (live_running hrun)) hold rfl
    · cases hstep
  · cases hstep
    exact hinv.goOn (Or.inl ⟨-1, rfl⟩) hold rfl

/-- A process that sets up no slot changes its own slot and goes on. -/
theorem Inv.ownSlot {x : Proc} {c : Call} (hinv : Inv t) (hrun : (t.proc p).state = .running)
    (hold : ∀ j, ¬Setup (t.call p) j) (hlive : User c ∨ Live x.state)
    (hused : x.state ≠ .unused) (hpid : x.pid = (t.proc p).pid)
    (hzombie : x.state = .zombie → NoFiles x) (hok : CallOk ((t.setProc p x).setCall p c) p)
    (hnew : ∀ j, ¬Setup c j) : Inv ((t.setProc p x).setCall p c) := by
  have husedp : (t.proc p).state ≠ .unused := by simp [hrun]
  refine hinv.of_keep ⟨rfl, rfl, fun _ _ _ _ => rfl, fun q _ => hinv.not_setup_of_used husedp,
    Or.inl rfl, hok, fun hne => (hne rfl).elim, ?_, fun h => (hused h).elim,
    fun j _ => iff_of_false (hold j) (hnew j), hzombie⟩ (fun _ => ⟨Or.inl husedp, hpid⟩) rfl rfl
  simpa using hlive

/-- A lock may be released before or after the process goes on. -/
theorem Inv.releaseCall {i : Nat} {c : Call} (hinv : Inv (t.setCall p c)) (hc : ∀ j, ¬Setup c j)
    (hrel : t.release p i = some t') : Inv (t'.setCall p c) := by
  have hrel' : (t.setCall p c).release p i = some (t'.setCall p c) := by
    obtain ⟨hlock, ⟨⟩⟩ := Option.ite_none_right_eq_some.mp hrel
    simp [Table.release, Table.setCall, hlock]
  refine (hinv.release hrel' ?_).1
  simpa using hc i

/-- The end of `exit`. -/
theorem inv_exitFinish {status : Int} {q : Nat} (hinv : Inv t)
    (hrun : (t.proc p).state = .running) (hold : ∀ j, ¬Setup (t.call p) j)
    (hfiles : NoFiles (t.proc p)) (hstep : exitFinish t p status q = some t') : Inv t' := by
  -- Waking the parent comes first; it does not change the exiting process.
  have hwake : Inv (t.setProc q ((t.proc q).wakeup1 q)) := by
    rcases touch_wake (t := t) (i := q)
      (b := (t.proc q).chan = some (.proc q) ∧ (t.proc q).state = .sleeping) (fun h => h.2)
      with hsame | htouch
    · rw [Proc.wakeup1, hsame, setProc, update_eq_self]
      exact hinv
    · exact hinv.touch htouch
  have hself : (t.setProc q ((t.proc q).wakeup1 q)).proc p = t.proc p := by
    obtain rfl | hpq := eq_or_ne p q
    · simp [Proc.wakeup1, hrun]
    · simp [hpq]
  simp only [exitFinish, Option.bind_eq_bind, Option.bind_eq_some_iff] at hstep
  obtain ⟨t₁, hrel₁, t₂, hrel₂, heq⟩ := hstep
  rw [hself] at hrel₁
  have hzombie := hwake.ownSlot (p := p) (c := .user status)
    (x := { t.proc p with xstate := status, state := .zombie }) (by rw [hself]; exact hrun) hold
    (Or.inl ⟨status, rfl⟩) (by simp) (by rw [hself]) (fun _ => hfiles) (by simp [CallOk])
    (by simp)
  have hnot : ∀ j, ¬Setup (.user status) j := by simp
  cases heq
  exact (hzombie.releaseCall hnot hrel₁).releaseCall hnot hrel₂

/-- `wakeup1` of a running process. -/
theorem wakeup1_of_running {x : Proc} {i : Nat} (hx : x.state = .running) : x.wakeup1 i = x := by
  simp [Proc.wakeup1, hx]

/-- What a critical section does. -/
theorem atomically_proc {i : Nat} {f : Proc → Proc} (hstep : t.atomically i f = some t') :
    t.lock i = none ∧ t'.proc = update t.proc i (f (t.proc i)) := by
  obtain ⟨hlock, ⟨⟩⟩ := Option.ite_none_right_eq_some.mp hstep
  exact ⟨hlock, rfl⟩

/-- What a critical section of another slot, or one that keeps state and files,
leaves of the caller's own slot. -/
theorem own_atomically {i : Nat} {f : Proc → Proc} (hstep : t.atomically i f = some t')
    (hkeep : (f (t.proc p)).state = (t.proc p).state ∧ (f (t.proc p)).ofile = (t.proc p).ofile ∧
      (f (t.proc p)).cwd = (t.proc p).cwd) :
    (t'.proc p).state = (t.proc p).state ∧ (t'.proc p).ofile = (t.proc p).ofile ∧
      (t'.proc p).cwd = (t.proc p).cwd := by
  rw [(atomically_proc hstep).2]
  obtain rfl | hpi := eq_or_ne p i
  · simpa using hkeep
  · simp [hpi]

/-- A slot with a parent is in use. -/
theorem Inv.used_of_parent {i q : Nat} (hinv : Inv t) (hlock : t.lock i = none)
    (hparent : (t.proc i).parent = some q) : (t.proc i).state ≠ .unused := by
  intro hunused
  have hclean := hinv.clean i hunused fun _ => hinv.not_setup_of_unlocked hlock
  simp [hclean.parent] at hparent

/-- `exit` goes on after it has closed the files. -/
theorem Inv.exits {c : Call} (hinv : Inv t) (hlive : Live (t.proc p).state)
    (hfiles : NoFiles (t.proc p)) (hold : ∀ j, ¬Setup (t.call p) j) (hc : c.exiting = true) :
    Inv (t.setCall p c) := by
  refine hinv.setCall (Or.inr hlive) hold (fun j => ?_) ?_ <;> cases c <;>
    simp_all [Call.exiting, CallOk]

/-- `exit`. -/
theorem inv_exitStep (hinv : Inv t) (hrun : (t.proc p).state = .running)
    (hstep : exitStep t p = some t') : Inv t' := by
  have hok := hinv.calls p
  have hlive := live_running hrun
  unfold exitStep at hstep
  rw [CallOk] at hok
  split at hstep
  next status fd hcall =>
    have hold : ∀ j, ¬Setup (t.call p) j := by simp [hcall]
    rw [hcall] at hok
    split at hstep
    · cases hstep
      refine hinv.ownSlot hrun hold (Or.inr hlive) (by simp [hrun]) rfl
        (by simp [hrun]) ?_ (by simp)
      simp only [CallOk, Table.setCall, setProc, update_self]
      intro fd' hfd'
      by_cases heq : fd' = fd
      · rw [heq, update_self]
      · rw [update_of_ne heq]
        exact hok fd' (by omega)
    next hfd =>
      cases hstep
      refine hinv.ownSlot hrun hold (Or.inr hlive) (by simp [hrun]) rfl
        (by simp [hrun]) ?_ (by simp)
      simp only [CallOk, Table.setCall, setProc, update_self]
      exact ⟨fun fd' hfd' => hok fd' (by omega), rfl⟩
  next status hcall =>
    rw [hcall] at hok
    obtain ⟨t₁, hwake, rfl⟩ := Option.map_eq_some_iff.mp hstep
    obtain ⟨hinv₁, hcalls, -⟩ := hinv.atomically hwake (touch_wake fun h => h.2)
    have hself := own_atomically (p := p) hwake (by simp [wakeup1_of_running hrun])
    exact hinv₁.exits (by rwa [hself.1]) (by simpa [NoFiles, hself] using hok)
      (by simp [hcalls, hcall]) rfl
  next status hcall =>
    rw [hcall] at hok
    obtain ⟨-, hstep⟩ := Option.ite_none_right_eq_some.mp hstep
    obtain ⟨q, -, rfl⟩ := Option.map_eq_some_iff.mp hstep
    exact hinv.exits hlive hok (by simp [hcall]) rfl
  next status q hcall =>
    rw [hcall] at hok
    obtain ⟨t₁, hacq, rfl⟩ := Option.map_eq_some_iff.mp hstep
    obtain ⟨hinv₁, hproc, hcalls, -⟩ := hinv.acquire hacq
    exact hinv₁.exits (by rwa [hproc]) (by rwa [hproc]) (by simp [hcalls, hcall]) rfl
  next status q hcall =>
    rw [hcall] at hok
    obtain ⟨t₁, hacq, rfl⟩ := Option.map_eq_some_iff.mp hstep
    obtain ⟨hinv₁, hproc, hcalls, -⟩ := hinv.acquire hacq
    exact hinv₁.exits (by rwa [hproc]) (by rwa [hproc]) (by simp [hcalls, hcall]) rfl
  next status q i hcall =>
    rw [hcall] at hok
    split at hstep
    · split at hstep
      next hparent =>
        obtain ⟨t₁, hset, rfl⟩ := Option.map_eq_some_iff.mp hstep
        have hused := hinv.used_of_parent (atomically_proc hset).1 hparent
        obtain ⟨hinv₁, hcalls, -⟩ := hinv.atomically hset
          (Or.inr ⟨hused, Or.inr rfl, rfl, Or.inr ⟨rfl, rfl⟩⟩)
        have hself := own_atomically (p := p) hset ⟨rfl, rfl, rfl⟩
        exact hinv₁.exits (by rwa [hself.1]) (by simpa [NoFiles, hself] using hok)
          (by simp [hcalls, hcall]) rfl
      · cases hstep
        exact hinv.exits hlive hok (by simp [hcall]) rfl
    · exact inv_exitFinish hinv hrun (by simp [hcall]) hok hstep
  · cases hstep

/-- Return from a call after releasing a lock. -/
theorem Inv.return_release {i : Nat} {ret : Int} (hinv : Inv t)
    (hold : ∀ j, ¬Setup (t.call p) j)
    (hstep : (t.release p i).map (fun t => t.setCall p (.user ret)) = some t') : Inv t' := by
  obtain ⟨t₁, hrel, rfl⟩ := Option.map_eq_some_iff.mp hstep
  have huser : Inv (t.setCall p (.user ret)) := hinv.goOn (Or.inl ⟨ret, rfl⟩) hold rfl
  exact huser.releaseCall (by simp) hrel

/-- `wait` frees the slot of a zombie. -/
theorem Inv.reap {i : Nat} {ret : Int} (hinv : Inv t)
    (hold : ∀ j, ¬Setup (t.call p) j) (hzombie : (t.proc i).state = .zombie) :
    Inv ((t.setProc i (t.proc i).freeproc).setCall p (.user ret)) := by
  have hused : (t.proc i).state ≠ .unused := by simp [hzombie]
  have huser : User (t.call i) := hinv.user_of_dead (by simp [Live, hzombie])
  refine hinv.of_keep ⟨rfl, rfl, fun _ _ _ _ => rfl, fun q _ => hinv.not_setup_of_used hused,
    Or.inr (Or.inl huser), by simp [CallOk], fun _ => Or.inl huser,
    Or.inl ⟨ret, rfl⟩, fun _ _ => clean_freeproc (hinv.zombie i hzombie),
    fun j _ => iff_of_false (hold j) (by simp), by simp [Proc.freeproc]⟩ (fun h => ?_)
    rfl rfl
  rcases h with h | h
  · exact (h rfl).elim
  · simp at h

/-- `wait`. -/
theorem inv_waitStep {ok : Bool} (hinv : Inv t) (hrun : (t.proc p).state = .running)
    (hstep : waitStep t p ok = some t') : Inv t' := by
  have hlive := live_running hrun
  unfold waitStep at hstep
  split at hstep
  next hcall =>
    obtain ⟨t₁, hacq, rfl⟩ := Option.map_eq_some_iff.mp hstep
    obtain ⟨hinv₁, hproc, hcalls, -⟩ := hinv.acquire hacq
    exact hinv₁.goOn (Or.inr (by rw [hproc]; exact hlive)) (by simp [hcalls, hcall]) rfl
  next i havekids hcall =>
    have hold : ∀ j, ¬Setup (t.call p) j := by simp [hcall]
    split at hstep
    · split at hstep <;> cases hstep
      · exact hinv.goOn (Or.inr hlive) hold rfl
      · exact hinv.goOn (Or.inr hlive) hold rfl
    · split at hstep
      · exact hinv.return_release hold hstep
      · obtain ⟨t₁, hrel, rfl⟩ := Option.map_eq_some_iff.mp hstep
        refine Inv.releaseCall ?_ (by simp) hrel
        refine hinv.ownSlot hrun hold (Or.inr ?_) ?_ rfl ?_ ?_ (by simp)
        · simp [Live]
        · simp
        · simp
        · simp [CallOk]
  next i hcall =>
    have hold : ∀ j, ¬Setup (t.call p) j := by simp [hcall]
    obtain ⟨hlock, hstep⟩ := Option.ite_none_right_eq_some.mp hstep
    split at hstep
    next hzombie =>
      split at hstep
      · obtain ⟨t₁, hrel, rfl⟩ := Option.map_eq_some_iff.mp hstep
        exact Inv.releaseCall (hinv.reap hold hzombie) (by simp) hrel
      · exact hinv.return_release hold hstep
    · cases hstep
      exact hinv.goOn (Or.inr hlive) hold rfl
  · cases hstep

/-- Entering a system call. -/
theorem inv_start {c : Call} (hinv : Inv t) (hc : ∀ j, ¬Setup c j)
    (hok : (t.proc p).state = .running → CallOk (t.setCall p c) p)
    (hstep : startCall t p c = some t') : Inv t' := by
  simp only [startCall] at hstep
  split at hstep
  next ret hcall =>
    obtain ⟨hrun, ⟨⟩⟩ := Option.ite_none_right_eq_some.mp hstep
    exact hinv.setCall (Or.inr (live_running hrun)) (by simp [hcall]) hc (hok hrun)
  · cases hstep

/-- A change of the scheduling state of a running process. -/
theorem touch_running {x : Proc} (hrun : (t.proc p).state = .running) (hx : Live x.state)
    (hpid : x.pid = (t.proc p).pid)
    (hfiles : User (t.call p) ∨ (x.ofile = (t.proc p).ofile ∧ x.cwd = (t.proc p).cwd)) :
    Touch t p x :=
  ⟨by simp [hrun], Or.inl ⟨live_running hrun, hx⟩, hpid, hfiles.imp (fun h => ⟨hx, h⟩) id⟩

end Steps

/-! ## Runs -/

/-- The conditions on a run: `allocproc` finds a page for the trapframe, `kill(0)`
does not look at a free slot, and `kill` does not look at a zombie with its pid. -/
def Rule (t : Table) : Act → Prop
  | .trapframe _ => t.freelist ≠ []
  | .killScan p =>
    match t.call p with
    | .kill pid i => i < nproc → ((t.proc i).state = .unused → pid ≠ 0) ∧
      ((t.proc i).state = .zombie → (t.proc i).pid ≠ pid)
    | _ => True
  | _ => True

/-- Whether a step keeps to the conditions can be evaluated. -/
instance (t : Table) (a : Act) : Decidable (Rule t a) := by
  unfold Rule
  split
  · infer_instance
  · split <;> infer_instance
  · infer_instance

/-- The step lemma. -/
theorem inv_step {t t' : Table} {a : Act} (hinv : Inv t) (hrule : Rule t a)
    (hstep : step t a = some t') : Inv t' := by
  cases a with
  | run p => exact inv_run hinv hstep
  | yield p =>
    obtain ⟨hguard, hstep⟩ := Option.ite_none_right_eq_some.mp hstep
    exact (hinv.atomically hstep (Or.inr (touch_running hguard.1 (by simp [Live]) rfl
      (Or.inr ⟨rfl, rfl⟩)))).1
  | sleep p chan =>
    obtain ⟨hguard, hstep⟩ := Option.ite_none_right_eq_some.mp hstep
    exact (hinv.atomically hstep (Or.inr (touch_running hguard.1 (by simp [Live]) rfl
      (Or.inr ⟨rfl, rfl⟩)))).1
  | wakeup i chan => exact (hinv.atomically hstep (touch_wake fun h => h.1)).1
  | fault p =>
    simp only [step] at hstep
    split at hstep
    · split at hstep
      next hrun =>
        cases hstep
        exact hinv.touch (touch_running hrun (live_running hrun) rfl (Or.inr ⟨rfl, rfl⟩))
      · cases hstep
    · cases hstep
  | kmem pages =>
    cases hstep
    exact hinv.setFreelist
  | own p sz pagetable ofile cwd =>
    simp only [step] at hstep
    split at hstep
    next ret hcall =>
      obtain ⟨hrun, ⟨⟩⟩ := Option.ite_none_right_eq_some.mp hstep
      exact hinv.touch (touch_running hrun (live_running hrun) rfl (Or.inl ⟨ret, hcall⟩))
    · cases hstep
  | fork p => exact inv_start hinv (by simp) (by simp [CallOk]) hstep
  | allocproc p =>
    obtain ⟨hrun, hstep⟩ := Option.ite_none_right_eq_some.mp hstep
    split at hstep
    next i hcall =>
      exact inv_allocprocScan hinv hrun hcall hstep
    · cases hstep
  | trapframe p =>
    obtain ⟨hrun, hstep⟩ := Option.ite_none_right_eq_some.mp hstep
    split at hstep
    next np hcall =>
      exact inv_allocTrapframe hinv hrun hcall hrule hstep
    · cases hstep
  | pagetable p result pages =>
    obtain ⟨hrun, hstep⟩ := Option.ite_none_right_eq_some.mp hstep
    split at hstep
    next np hcall =>
      obtain ⟨t₁, halloc, rfl⟩ := Option.map_eq_some_iff.mp hstep
      exact (inv_allocPagetable hinv hrun hcall halloc).setFreelist
    · cases hstep
  | copy p ok pages =>
    obtain ⟨-, hstep⟩ := Option.ite_none_right_eq_some.mp hstep
    split at hstep
    next np hcall =>
      obtain ⟨t₁, hcopy, rfl⟩ := Option.map_eq_some_iff.mp hstep
      exact (inv_forkCopy hinv hcall hcopy).setFreelist
    · cases hstep
  | kill p pid => exact inv_start hinv (by simp) (by simp [CallOk]) hstep
  | killScan p =>
    obtain ⟨hrun, hstep⟩ := Option.ite_none_right_eq_some.mp hstep
    split at hstep
    next pid i hcall =>
      simp only [Rule, hcall] at hrule
      exact inv_killScan hinv hrun hcall (fun hi => (hrule hi).1) hstep
    · cases hstep
  | exit p status =>
    simp only [step] at hstep
    split at hstep
    · cases hstep
    · exact inv_start hinv (by simp) (by simp [CallOk]) hstep
  | exitStep p =>
    obtain ⟨hrun, hstep⟩ := Option.ite_none_right_eq_some.mp hstep
    exact inv_exitStep hinv hrun hstep
  | wait p => exact inv_start hinv (by simp) (by simp [CallOk]) hstep
  | waitStep p ok pages =>
    obtain ⟨hrun, hstep⟩ := Option.ite_none_right_eq_some.mp hstep
    obtain ⟨t₁, hwait, rfl⟩ := Option.map_eq_some_iff.mp hstep
    exact (inv_waitStep hinv hrun hwait).setFreelist

/-- The invariant holds after `userinit`. -/
theorem inv_userinit (trapframe pagetable root : Nat) (pages : List Nat) :
    Inv (userinit trapframe pagetable root pages) := by
  have hproc : ∀ i, i ≠ 0 → (userinit trapframe pagetable root pages).proc i = zero := by
    intro i hi
    simp [userinit, hi]
  have hfirst : Occupied (userinit trapframe pagetable root pages) = fun i => i = 0 := by
    funext i
    by_cases hi : i = 0
    · simp [Occupied, userinit, hi]
    · simp [Occupied, userinit, hi, zero]
  constructor
  · intro p
    simp [CallOk, userinit]
  · intro p
    exact Or.inl ⟨0, rfl⟩
  · intro i hi _
    have hne : i ≠ 0 := by
      rintro rfl
      simp [userinit] at hi
    rw [hproc i hne]
    exact ⟨rfl, rfl, rfl, rfl, rfl, rfl, rfl, fun _ _ => rfl, rfl⟩
  · intro i hi
    obtain rfl | hne := eq_or_ne i 0
    · simp [userinit] at hi
    · simp [hproc i hne, zero] at hi
  · intro _
    refine ⟨rfl, ?_, ?_⟩
    · rw [hfirst]
      rintro i rfl
      simp [userinit]
    · rw [hfirst]
      rintro i j rfl rfl _
      rfl

section Hygiene

variable {t t' : Table} {p : Nat}

/-- `kill` under the rule. -/
theorem Inv.kill_only {pid : Int} {i : Nat} (hinv : Inv t) (hcall : t.call p = .kill pid i)
    (hrule : Rule t (.killScan p)) (hstep : step t (.killScan p) = some t') :
    (∀ j, t'.proc j ≠ t.proc j → Live (t.proc j).state ∧ (t.proc j).pid = pid) ∧
      (t'.call p = .user 0 → Live (t.proc i).state ∧ (t.proc i).pid = pid) := by
  simp only [Rule, hcall] at hrule
  obtain ⟨-, hstep⟩ := Option.ite_none_right_eq_some.mp hstep
  simp only [hcall, killScan] at hstep
  split at hstep
  next hi =>
    split at hstep
    next hlock =>
      split at hstep
      next hpid =>
        cases hstep
        have hlive : Live (t.proc i).state :=
          ⟨hinv.used_of_pid hlock hpid (hrule hi).1, fun hzombie => (hrule hi).2 hzombie hpid⟩
        refine ⟨?_, fun _ => ⟨hlive, hpid⟩⟩
        intro j hj
        have hji : j = i := by
          by_contra hji
          exact hj (by simp [hji])
        rw [hji]
        exact ⟨hlive, hpid⟩
      · cases hstep
        exact ⟨fun j hj => (hj rfl).elim, by simp⟩
    · cases hstep
  · cases hstep
    exact ⟨fun j hj => (hj rfl).elim, by simp⟩

/-- A child is born alive. -/
theorem Inv.born_alive {np : Nat} {pages : List Nat} (hinv : Inv t)
    (hcall : t.call p = .forkCopy np) (hstep : step t (.copy p true pages) = some t') :
    (t'.proc np).state = .runnable ∧ (t'.proc np).killed = 0 := by
  obtain ⟨-, hstep⟩ := Option.ite_none_right_eq_some.mp hstep
  simp only [hcall] at hstep
  obtain ⟨t₁, hcopy, rfl⟩ := Option.map_eq_some_iff.mp hstep
  rw [forkCopy_eq hcopy]
  have hsetup : Setup (t.call p) np := by simp [hcall]
  have hkilled := (hinv.setup_files hsetup).2
  simpa [child] using hkilled

/-- A step against the rule leaves a free slot that is not blank, or it is a `kill`
that returns 0 for a dead process. -/
theorem Inv.rule_sharp {a : Act} (hinv : Inv t) (hhanded : t.handed < 2 ^ 31 - 1)
    (hrule : ¬Rule t a) (hstep : step t a = some t') :
    ¬Hygienic t' ∨ ∃ p pid i, a = .killScan p ∧ t.call p = .kill pid i ∧
      (t.proc i).state = .zombie ∧ t'.call p = .user 0 := by
  cases a with
  | trapframe p =>
    left
    intro hyg
    have hnil : t.freelist = [] := by simpa [Rule] using hrule
    obtain ⟨-, hstep⟩ := Option.ite_none_right_eq_some.mp hstep
    split at hstep
    next np hcall =>
      have hsetup : Setup (t.call p) np := by simp [hcall]
      simp only [allocTrapframe, hnil, Table.release, (hinv.setup hsetup).1, if_true,
        Option.map_some, Option.some.injEq] at hstep
      subst hstep
      have hclean := hyg.clean np (hinv.setup hsetup).2 ?_
      · have hrange := ((hinv.pids hhanded).range np (Or.inr ⟨p, hsetup⟩)).1
        have hzero : (t.proc np).pid = 0 := hclean.pid
        omega
      · intro q hq
        obtain rfl | hqp := eq_or_ne q p
        · simp at hq
        · simp only [Table.setCall, update_of_ne hqp] at hq
          exact hqp (hinv.setup_unique hq hsetup)
    · cases hstep
  | killScan p =>
    obtain ⟨-, hstep⟩ := Option.ite_none_right_eq_some.mp hstep
    split at hstep
    next pid i hcall =>
      simp only [Rule, hcall, Classical.not_imp, Decidable.not_and_iff_not_or_not, not_not]
        at hrule
      obtain ⟨hi, hrule⟩ := hrule
      simp only [killScan, if_pos hi] at hstep
      obtain ⟨hlock, hstep⟩ := Option.ite_none_right_eq_some.mp hstep
      rcases hrule with ⟨hunused, rfl⟩ | ⟨hzombie, hpid⟩
      · left
        intro hyg
        have hnone : ∀ q, ¬Setup (t.call q) i := fun q => hinv.not_setup_of_unlocked hlock
        rw [if_pos (hinv.clean i hunused hnone).pid, Option.some.injEq] at hstep
        subst hstep
        have hclean := hyg.clean i ?_ ?_
        · simpa [Proc.kill] using hclean.killed
        · simp [Proc.kill, hunused]
        · intro q hq
          obtain rfl | hqp := eq_or_ne q p
          · simp at hq
          · exact hnone q (by simpa [hqp] using hq)
      · rw [if_pos hpid, Option.some.injEq] at hstep
        subst hstep
        exact Or.inr ⟨p, pid, i, rfl, hcall, hzombie, by simp⟩
    · cases hstep
  | _ => exact (hrule trivial).elim

end Hygiene

/-- In every run in which `allocproc` always finds a page for the trapframe,
`kill(0)` never looks at a free slot and `kill` never looks at a zombie with its
pid, free slots are blank and pids are distinct; `kill` returns 0 and changes a
slot only if it holds a live process with that pid; and a child is born alive.
Conversely, a step against the rule leaves a free slot that is not blank, or is a
`kill` that returns 0 for a zombie. -/
theorem table_hygiene {trapframe pagetable root : Nat} {pages : List Nat} {t : Table}
    (hrun : Run step Rule (userinit trapframe pagetable root pages) t) :
    Hygienic t ∧
    (∀ p pid i t', t.call p = .kill pid i → Rule t (.killScan p) →
      step t (.killScan p) = some t' →
        (∀ j, t'.proc j ≠ t.proc j → Live (t.proc j).state ∧ (t.proc j).pid = pid) ∧
        (t'.call p = .user 0 → Live (t.proc i).state ∧ (t.proc i).pid = pid)) ∧
    (∀ p np pages' t', t.call p = .forkCopy np → step t (.copy p true pages') = some t' →
      (t'.proc np).state = .runnable ∧ (t'.proc np).killed = 0) ∧
    ∀ a t', t.handed < 2 ^ 31 - 1 → ¬Rule t a → step t a = some t' →
      ¬Hygienic t' ∨ ∃ p pid i, a = .killScan p ∧ t.call p = .kill pid i ∧
        (t.proc i).state = .zombie ∧ t'.call p = .user 0 := by
  have hinv : Inv t := hrun.invariant (inv_userinit trapframe pagetable root pages)
    fun _ _ _ ht hrule hstep => inv_step ht hrule hstep
  exact ⟨hinv.hygienic, fun _ _ _ _ => hinv.kill_only, fun _ _ _ _ => hinv.born_alive,
    fun _ _ hhanded hrule hstep => hinv.rule_sharp hhanded hrule hstep⟩

/-- The first process forks a child and kills it. -/
theorem table_hygiene_one_child :
    ∃ t, Run step Rule (userinit 1 2 3 [4]) t ∧ t.call 0 = .user 0 ∧ (t.proc 1).pid = 2 ∧
      (t.proc 1).killed = 1 ∧ Hygienic t := by
  have hexec : (exec step Rule (userinit 1 2 3 [4]) [.run 0, .fork 0, .allocproc 0, .allocproc 0,
      .trapframe 0, .pagetable 0 (some 5) [], .copy 0 true [], .kill 0 2, .killScan 0,
      .killScan 0]).map (fun t => (t.call 0, (t.proc 1).pid, (t.proc 1).killed)) =
        some (.user 0, 2, 1) := by
    decide +kernel
  obtain ⟨t, hrun, ht⟩ := exec_reaches hexec
  simp only [Prod.mk.injEq] at ht
  exact ⟨t, hrun, ht.1, ht.2.1, ht.2.2, (table_hygiene hrun).1⟩

/-- Without the rule, `kill(0)` marks a free slot, so that the next child is killed
at birth; a `fork` that finds no page for the trapframe leaves a pid in a free
slot; and `kill` returns 0 for a child that has exited. -/
theorem child_born_killed :
    (∃ t, Run step (fun _ _ => True) (userinit 1 2 3 [4]) t ∧ t.call 0 = .user 2 ∧
      (t.proc 1).pid = 2 ∧ (t.proc 1).state = .runnable ∧ (t.proc 1).killed = 1) ∧
    (∃ t, Run step (fun _ _ => True) (userinit 1 2 3 []) t ∧ t.call 0 = .user (-1) ∧
      (t.proc 1).state = .unused ∧ (t.proc 1).pid = 2) ∧
    ∃ t, Run step (fun _ _ => True) (userinit 1 2 3 [4]) t ∧ t.call 0 = .user 0 ∧
      (t.proc 1).state = .zombie ∧ (t.proc 1).killed = 1 := by
  refine ⟨?_, ?_, ?_⟩
  · have hexec : (exec step (fun _ _ => True) (userinit 1 2 3 [4]) [.run 0, .kill 0 0,
        .killScan 0, .killScan 0, .fork 0, .allocproc 0, .allocproc 0, .trapframe 0,
        .pagetable 0 (some 5) [], .copy 0 true []]).map
          (fun t => (t.call 0, (t.proc 1).pid, (t.proc 1).state, (t.proc 1).killed)) =
            some (.user 2, 2, .runnable, 1) := by
      decide +kernel
    obtain ⟨t, hrun, ht⟩ := exec_reaches hexec
    simp only [Prod.mk.injEq] at ht
    exact ⟨t, hrun, ht.1, ht.2.1, ht.2.2.1, ht.2.2.2⟩
  · have hexec : (exec step (fun _ _ => True) (userinit 1 2 3 []) [.run 0, .fork 0, .allocproc 0,
        .allocproc 0, .trapframe 0]).map
          (fun t => (t.call 0, (t.proc 1).state, (t.proc 1).pid)) =
            some (.user (-1), .unused, 2) := by
      decide +kernel
    obtain ⟨t, hrun, ht⟩ := exec_reaches hexec
    simp only [Prod.mk.injEq] at ht
    exact ⟨t, hrun, ht.1, ht.2.1, ht.2.2⟩
  -- The child closes its files, becomes a zombie, and its parent kills it.
  · have hexec : (exec step (fun _ _ => True) (userinit 1 2 3 [4]) ([.run 0, .fork 0,
        .allocproc 0, .allocproc 0, .trapframe 0, .pagetable 0 (some 5) [], .copy 0 true [],
        .run 1, .exit 1 0] ++ List.replicate 86 (.exitStep 1) ++
        [.kill 0 2, .killScan 0, .killScan 0])).map
          (fun t => (t.call 0, (t.proc 1).state, (t.proc 1).killed)) =
            some (.user 0, .zombie, 1) := by
      decide +kernel
    obtain ⟨t, hrun, ht⟩ := exec_reaches hexec
    simp only [Prod.mk.injEq] at ht
    exact ⟨t, hrun, ht.1, ht.2.1, ht.2.2⟩

end Proc
end Xv6
