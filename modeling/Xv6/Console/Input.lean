import Mathlib.Logic.Function.Basic
import Xv6.Lib.Run
import Xv6.Lib.Wrapping
import Xv6.Param

/-!
# Console input

`consoleintr` and `consoleread`.  Both hold `cons.lock` except while a reader sleeps, so
that an input character is one step, and so is what a reader does between the
`acquire` and its next `sleep` or its return.  The echo is left out.

Main definitions:

- {lit}`consoleintr`: the interrupt handler.
- {lit}`readLoop`: the loop of `consoleread`.
- {lit}`step`: one section under the lock, or a `kill`.
-/

namespace Xv6

open Function

/-- Size of the input buffer, `INPUT_BUF`. -/
def inputBuf : Nat := 128

namespace Cons

/-- `C(x)`, the control characters. -/
def ctrl (x : Char) : UInt8 := x.toNat.toUInt8 - 64

def newline : UInt8 := 10

def carriageReturn : UInt8 := 13

def delete : UInt8 := 127

/-! ## States -/

/-- How far a process has come in `consoleread`, whose destination is mapped. -/
inductive Call where
  /-- Not in a call; `ret` is what the last one has returned. -/
  | idle (ret : Int)
  /-- Before it has the lock. -/
  | read (n : Int)
  /-- In `sleep(&cons.r, &cons.lock)`. -/
  | asleep (target n : Nat)
  /-- There again after a `wakeup` or a `kill`. -/
  | woken (target n : Nat)
deriving DecidableEq

/-- `cons` and its readers.  The last three fields are histories, which no step reads: the
characters committed so far, those removed so far, and what the last call of each
process has copied out. -/
structure State where
  buf : Nat → UInt8
  r : Nat
  w : Nat
  e : Nat
  call : Nat → Call
  killed : Nat → Bool
  committed : List UInt8
  removed : List UInt8
  got : Nat → List UInt8

/-- After `consoleinit`. -/
def boot (buf : Nat → UInt8) : State where
  buf := buf
  r := 0
  w := 0
  e := 0
  call := fun _ => .idle 0
  killed := fun _ => false
  committed := []
  removed := []
  got := fun _ => []

namespace State

/-- The committed characters that no reader has taken. -/
def queue (s : State) : List UInt8 := Lib.buffered (2 ^ 32) inputBuf s.buf s.r s.w

/-- The characters typed since the last commit. -/
def line (s : State) : List UInt8 := Lib.buffered (2 ^ 32) inputBuf s.buf s.w s.e

def setCall (s : State) (p : Nat) (c : Call) : State :=
  { s with call := update s.call p c }

/-- `wakeup(&cons.r)`. -/
def wakeup (s : State) : State :=
  { s with call := fun p =>
      match s.call p with
      | .asleep target n => .woken target n
      | other => other }

/-- `cons.e--`. -/
def erase (s : State) : State := { s with e := Lib.prev (2 ^ 32) s.e }

/-- `cons.buf[cons.e++ % INPUT_BUF] = c`. -/
def store (s : State) (c : UInt8) : State :=
  { s with buf := update s.buf (s.e % inputBuf) c, e := uint (s.e + 1) }

/-- `cons.w = cons.e`, with the wakeup. -/
def commit (s : State) : State :=
  { s with w := s.e, committed := s.committed ++ s.line }.wakeup

/-- `cons.buf[cons.r % INPUT_BUF]`. -/
def next (s : State) : UInt8 := s.buf (s.r % inputBuf)

/-- `cons.r++`. -/
def skip (s : State) : State := { s with r := uint (s.r + 1) }

/-- `cons.r--`. -/
def back (s : State) : State := { s with r := Lib.prev (2 ^ 32) s.r }

/-- Copy a character out to process `p`. -/
def deliver (s : State) (p : Nat) (c : UInt8) : State :=
  { s with
    removed := s.removed ++ [c]
    got := update s.got p (s.got p ++ [c]) }

end State

open State

/-! ## The interrupt handler -/

/-- The loop of the kill character.  It makes at most `cons.e - cons.w` turns. -/
def killLine : Nat → State → State
  | 0, s => s
  | k + 1, s =>
    if s.e ≠ s.w ∧ s.buf (Lib.prev (2 ^ 32) s.e % inputBuf) ≠ newline then killLine k s.erase
    else s

/-- The default case of `consoleintr`. -/
def typed (s : State) (c : UInt8) : State :=
  if c ≠ 0 ∧ Lib.ahead (2 ^ 32) s.r s.e < inputBuf then
    let c := if c = carriageReturn then newline else c
    let s := s.store c
    if c = newline ∨ c = ctrl 'D' ∨ s.e = uint (s.r + inputBuf) then s.commit else s
  else s

/-- `consoleintr`. -/
def consoleintr (s : State) (c : UInt8) : State :=
  if c = ctrl 'P' then s
  else if c = ctrl 'U' then killLine (Lib.ahead (2 ^ 32) s.w s.e) s
  else if c = ctrl 'H' ∨ c = delete then (if s.e ≠ s.w then s.erase else s)
  else typed s c

/-! ## Reading -/

/-- The loop of `consoleread`, with `n` bytes still to copy. -/
def readLoop (p target : Nat) : Nat → State → State
  | 0, s => s.setCall p (.idle target)
  | n + 1, s =>
    if s.r = s.w then
      if s.killed p = true then s.setCall p (.idle (-1))
      else s.setCall p (.asleep target (n + 1))
    else
      let c := s.next
      let s := s.skip
      if c = ctrl 'D' then
        -- `target - n` bytes have been copied.
        if n + 1 < target then s.back.setCall p (.idle (target - (n + 1) : Nat))
        else { s with removed := s.removed ++ [c] }.setCall p (.idle (target - (n + 1) : Nat))
      else if c = newline then (s.deliver p c).setCall p (.idle (target - n : Nat))
      else readLoop p target n (s.deliver p c)

inductive Act where
  /-- A call of `consoleread`. -/
  | read (p : Nat) (n : Int)
  /-- The next section of the call that `p` is in. -/
  | run (p : Nat)
  | kill (p : Nat)
  /-- A character arrives. -/
  | intr (c : UInt8)
deriving DecidableEq

/-- Go on with a call.  A process that sleeps has no step. -/
def runStep (s : State) (p : Nat) : Option State :=
  match s.call p with
  | .idle _ | .asleep _ _ => none
  | .read n => some (readLoop p n.toNat n.toNat s)
  | .woken target n => some (readLoop p target n s)

/-- `kill`, which also ends a sleep. -/
def kill (s : State) (p : Nat) : State :=
  { s with
    killed := update s.killed p true
    call := update s.call p
      (match s.call p with
      | .asleep target n => .woken target n
      | other => other) }

def step (s : State) : Act → Option State
  | .read p n =>
    match s.call p with
    | .idle _ => some { s.setCall p (.read n) with got := update s.got p [] }
    | _ => none
  | .run p => runStep s p
  | .kill p => some (kill s p)
  | .intr c => some (consoleintr s c)

end Cons
end Xv6
