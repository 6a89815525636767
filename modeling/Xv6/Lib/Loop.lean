import Xv6.Lib.Prog

/-!
# Loops with early exits

A C loop whose body may leave it with a result, by `break` or `return`.  The rounds are
counted; a loop that is not over after the given number does not return.

Main results:

- Theorem {lit}`wp_loop`: the rule for such loops, with an invariant and a variant.
-/

namespace Xv6
namespace Lib

variable {σ α β : Type}

/-- Repeat `body`, which returns the result of the loop or the variables of the next round. -/
def loop (body : β → Prog σ (α ⊕ β)) : Nat → β → Prog σ α
  | 0, _ => throw "loop"
  | n + 1, b => do
    match ← body b with
    | .inl a => pure a
    | .inr b => loop body n b

/-- What a round of a loop has to achieve. -/
def Round (Q : α → σ → Prop) (I : β → σ → Prop) (V : β → σ → Nat) (v : Nat) : α ⊕ β → σ → Prop
  | .inl a, s => Q a s
  | .inr b, s => I b s ∧ V b s < v

/-- The loop rule: every round keeps the invariant and lowers the variant. -/
theorem wp_loop {body : β → Prog σ (α ⊕ β)} {n : Nat} {b : β} {s : σ} {Q : α → σ → Prop}
    {E : String → σ → Prop} (I : β → σ → Prop) (V : β → σ → Nat)
    (hbody : ∀ b s, I b s → Wp (body b) s (Round Q I V (V b s)) E)
    (hinit : I b s) (hrounds : V b s < n) : Wp (loop body n b) s Q E := by
  induction n generalizing b s with
  | zero => exact absurd hrounds (Nat.not_lt_zero _)
  | succ n ih =>
    refine (hbody b s hinit).bind fun r s' hr => ?_
    cases r with
    | inl a => exact wp_pure.mpr hr
    | inr b' => exact ih hr.1 (by have := hr.2; omega)

end Lib
end Xv6
