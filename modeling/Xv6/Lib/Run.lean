import Mathlib.Logic.Relation

/-!
# Runs of guarded step functions

A system is a partial step function over states and actions.  Its users promise
a rule, which says what actions are allowed in what states.

Main results:

- Theorem {lit}`Run.invariant`: what holds at the start and is kept by every
  allowed step holds in every state of a run.
- Theorem {lit}`exec_run`: a list of actions that executes is a run.
-/

namespace Xv6
namespace Lib

variable {σ act : Type}

/-- One step by an action that the rule allows. -/
def Step (step : σ → act → Option σ) (rule : σ → act → Prop) (s s' : σ) : Prop :=
  ∃ a, rule s a ∧ step s a = some s'

/-- Any number of allowed steps. -/
def Run (step : σ → act → Option σ) (rule : σ → act → Prop) : σ → σ → Prop :=
  Relation.ReflTransGen (Step step rule)

section Rules

variable {step : σ → act → Option σ} {rule rule' : σ → act → Prop} {s s' : σ}

/-- No step. -/
theorem Run.refl : Run step rule s s :=
  Relation.ReflTransGen.refl

/-- Append one step to a run. -/
theorem Run.snoc {s'' : σ} {a : act} (hrun : Run step rule s s') (hrule : rule s' a)
    (hstep : step s' a = some s'') : Run step rule s s'' :=
  Relation.ReflTransGen.tail hrun ⟨a, hrule, hstep⟩

/-- One run after another. -/
theorem Run.trans {s'' : σ} (hrun : Run step rule s s') (hrun' : Run step rule s' s'') :
    Run step rule s s'' :=
  Relation.ReflTransGen.trans hrun hrun'

/-- The invariant rule. -/
theorem Run.invariant {I : σ → Prop} (hrun : Run step rule s s') (hinit : I s)
    (hkeep : ∀ t a t', I t → rule t a → step t a = some t' → I t') : I s' := by
  induction hrun with
  | refl => exact hinit
  | tail _ hlast ih =>
    obtain ⟨a, hrule, hstep⟩ := hlast
    exact hkeep _ a _ ih hrule hstep

/-- A run under one rule is a run under every weaker rule. -/
theorem Run.mono (hrun : Run step rule s s') (hweak : ∀ t a, rule t a → rule' t a) :
    Run step rule' s s' :=
  hrun.invariant .refl fun t a _ ht hrule hstep => ht.snoc (hweak t a hrule) hstep

end Rules

/-- Execute a list of actions, as long as the rule allows them. -/
def exec (step : σ → act → Option σ) (rule : σ → act → Prop) [∀ s a, Decidable (rule s a)] :
    σ → List act → Option σ
  | s, [] => some s
  | s, a :: as => if rule s a then (step s a).bind fun s' => exec step rule s' as else none

/-- An executed list of actions is a run. -/
theorem exec_run {step : σ → act → Option σ} {rule : σ → act → Prop}
    [∀ s a, Decidable (rule s a)] {s s' : σ} {as : List act}
    (hexec : exec step rule s as = some s') : Run step rule s s' := by
  induction as generalizing s with
  | nil =>
    cases hexec
    exact .refl
  | cons a as ih =>
    obtain ⟨hrule, hexec⟩ := Option.ite_none_right_eq_some.mp hexec
    obtain ⟨s₁, hstep, hrest⟩ := Option.bind_eq_some_iff.mp hexec
    exact Relation.ReflTransGen.head ⟨a, hrule, hstep⟩ (ih hrest)

/-- A run with an observation of its last state. -/
theorem exec_reaches {α : Type} {step : σ → act → Option σ} {rule : σ → act → Prop}
    [∀ s a, Decidable (rule s a)] {s : σ} {as : List act} {f : σ → α} {b : α}
    (hexec : (exec step rule s as).map f = some b) : ∃ s', Run step rule s s' ∧ f s' = b := by
  obtain ⟨s', hs', hf⟩ := Option.map_eq_some_iff.mp hexec
  exact ⟨s', exec_run hs', hf⟩

end Lib
end Xv6
