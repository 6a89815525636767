import Mathlib.Logic.Function.Basic

/-!
# Interrupts and spinlock nesting on one CPU

`push_off` and `pop_off` of `spinlock.c`, and the tests that `sched` makes before it
gives up the CPU.

Main results:

- Theorem {lit}`Cpu.popOff_eq`: `pop_off` does not panic while a `push_off` is open.
- Theorem {lit}`Cpu.schedPanic_eq_none_iff`: what `sched` insists on.
-/

namespace Xv6

/-- The fields of `struct cpu` that count the spinlocks, and the `SIE` bit of the CPU. -/
structure Cpu where
  noff : Nat
  intena : Bool
  intr : Bool
deriving DecidableEq

namespace Cpu

/-- `push_off`, whose call of `intr_get` has returned `old`. -/
def pushOff (u : Cpu) (old : Bool) : Cpu where
  noff := u.noff + 1
  intena := if u.noff = 0 then old else u.intena
  intr := false

/-- `pop_off`. -/
def popOff (u : Cpu) : Except String Cpu :=
  if u.intr = true then .error "pop_off - interruptible"
  else if u.noff < 1 then .error "pop_off"
  else .ok { u with
    noff := u.noff - 1
    intr := if u.noff - 1 = 0 ∧ u.intena = true then true else u.intr }

/-- The panic of `sched`, if there is one.  `holding` and `running` stand for the tests
of `p->lock` and of `p->state`. -/
def schedPanic (u : Cpu) (holding running : Bool) : Option String :=
  if holding = false then some "sched p->lock"
  else if u.noff ≠ 1 then some "sched locks"
  else if running = true then some "sched running"
  else if u.intr = true then some "sched interruptible"
  else none

variable {u : Cpu}

theorem popOff_eq (hnoff : 0 < u.noff) (hintr : u.intr = false) :
    u.popOff = .ok { u with noff := u.noff - 1, intr := decide (u.noff = 1) && u.intena } := by
  have hlt : ¬ u.noff < 1 := by omega
  have hone : u.noff - 1 = 0 ↔ u.noff = 1 := by omega
  unfold popOff
  rw [if_neg (by simp [hintr]), if_neg hlt, hintr]
  by_cases h1 : u.noff = 1 <;> cases hena : u.intena <;> simp [hone, h1]

theorem schedPanic_eq_none_iff {holding running : Bool} :
    u.schedPanic holding running = none ↔
      holding = true ∧ u.noff = 1 ∧ running = false ∧ u.intr = false := by
  unfold schedPanic
  by_cases hnoff : u.noff = 1 <;> cases holding <;> cases running <;> cases u.intr <;>
    simp [hnoff]

end Cpu
end Xv6
