import Mathlib.Tactic

/-!
# Programs that may panic

A program runs on a state and either returns a value or panics with a message;
in both cases it leaves a state behind.  `Wp` states what holds afterwards in
the two cases, and `Returns` says that the program does return.

Main results:

- Theorem {lit}`Wp.bind`: the rule for sequential composition.
- Theorem {lit}`wp_forUpto`: the invariant rule for counting loops.
-/

namespace Xv6
namespace Lib

/-- Programs over states `σ` with results in `α`. -/
abbrev Prog (σ α : Type) := EStateM String σ α

variable {σ α β : Type}

/-- If `m` returns from `s` then `Q` holds of its result, and if it panics then
`E` holds of the message; both may speak about the state left behind.  It is
irreducible so that stating it of a program does not run the program. -/
@[irreducible]
def Wp (m : Prog σ α) (s : σ) (Q : α → σ → Prop) (E : String → σ → Prop) : Prop :=
  match m s with
  | .ok a s' => Q a s'
  | .error e s' => E e s'

/-- `m` returns from `s`, and `Q` holds of its result. -/
def Returns (m : Prog σ α) (s : σ) (Q : α → σ → Prop) : Prop :=
  Wp m s Q fun _ _ => False

/-- The result of a run, or the message of its panic. -/
def outcome (m : Prog σ α) (s : σ) : Except String α :=
  match m s with
  | .ok a _ => .ok a
  | .error e _ => .error e

/-! ## Rules -/

section Rules

variable {m : Prog σ α} {f : α → Prog σ β} {s : σ}
variable {Q Q' : α → σ → Prop} {R : β → σ → Prop} {E E' : String → σ → Prop}

/-- A program that returns. -/
theorem returns_iff : Returns m s Q ↔ ∃ a s', m s = .ok a s' ∧ Q a s' := by
  unfold Returns Wp
  constructor
  · intro h
    split at h
    next a s' heq =>
      exact ⟨a, s', heq, h⟩
    · exact h.elim
  · rintro ⟨a, s', heq, hQ⟩
    rw [heq]
    exact hQ

/-- Weaker postconditions. -/
theorem Wp.mono (h : Wp m s Q E) (hQ : ∀ a s', Q a s' → Q' a s') (hE : ∀ e s', E e s' → E' e s') :
    Wp m s Q' E' := by
  unfold Wp at h ⊢
  split at h
  · exact hQ _ _ h
  · exact hE _ _ h

/-- A weaker postcondition. -/
theorem Wp.imp (h : Wp m s Q E) (hQ : ∀ a s', Q a s' → Q' a s') : Wp m s Q' E :=
  h.mono hQ fun _ _ => id

/-- What holds after a return. -/
theorem Wp.of_ok {a : α} {s' : σ} (h : Wp m s Q E) (hrun : m s = .ok a s') : Q a s' := by
  unfold Wp at h
  rwa [hrun] at h

/-- What holds after an error. -/
theorem Wp.of_error {e : String} {s' : σ} (h : Wp m s Q E) (hrun : m s = .error e s') :
    E e s' := by
  unfold Wp at h
  rwa [hrun] at h

/-- The outcome is a return. -/
theorem exists_ok {a : α} (h : outcome m s = .ok a) : ∃ s', m s = .ok a s' := by
  unfold outcome at h
  split at h
  next a' s' hrun =>
    cases h
    exact ⟨s', hrun⟩
  next => cases h

/-- The outcome is an error. -/
theorem exists_error {e : String} (h : outcome m s = .error e) : ∃ s', m s = .error e s' := by
  unfold outcome at h
  split at h
  next => cases h
  next e' s' hrun =>
    cases h
    exact ⟨s', hrun⟩

/-- A program that does the same from `s` has the same outcomes. -/
theorem Wp.of_eq {m' : Prog σ α} (h : Wp m' s Q E) (heq : m s = m' s) : Wp m s Q E := by
  unfold Wp at h ⊢
  rwa [heq]

/-- Two specifications of the same program. -/
theorem Wp.and (h : Wp m s Q E) (h' : Wp m s Q' E') :
    Wp m s (fun a s' => Q a s' ∧ Q' a s') (fun e s' => E e s' ∧ E' e s') := by
  unfold Wp at h h' ⊢
  cases hrun : m s with
  | ok a s' =>
    rw [hrun] at h h'
    exact ⟨h, h'⟩
  | error e s' =>
    rw [hrun] at h h'
    exact ⟨h, h'⟩

/-- How a composition runs. -/
theorem bind_apply : (m >>= f) s = match m s with
    | .ok a s' => f a s'
    | .error e s' => .error e s' := by
  change EStateM.bind m f s = _
  unfold EStateM.bind
  cases m s <;> rfl

/-- A composition whose first part returns. -/
theorem bind_of_ok {a : α} {s' : σ} (h : m s = .ok a s') : (m >>= f) s = f a s' := by
  rw [bind_apply, h]

/-- Sequential composition, as an equivalence for symbolic execution. -/
theorem wp_bind : Wp (m >>= f) s R E ↔ Wp m s (fun a s' => Wp (f a) s' R E) E := by
  unfold Wp
  rw [bind_apply]
  cases m s <;> exact Iff.rfl

/-- Sequential composition. -/
theorem Wp.bind (h : Wp m s Q E) (hf : ∀ a s', Q a s' → Wp (f a) s' R E) :
    Wp (m >>= f) s R E :=
  wp_bind.mpr (h.imp hf)

/-- A program whose result is known. -/
theorem wp_of_ok {a : α} {s' : σ} (hm : m s = .ok a s') : Wp m s Q E ↔ Q a s' := by
  unfold Wp
  rw [hm]

/-- A weaker postcondition. -/
theorem Returns.mono (h : Returns m s Q) (hQ : ∀ a s', Q a s' → Q' a s') : Returns m s Q' :=
  Wp.mono h hQ fun _ _ => id

/-- One program after another. -/
theorem Returns.bind (h : Returns m s Q) (hf : ∀ a s', Q a s' → Returns (f a) s' R) :
    Returns (m >>= f) s R :=
  Wp.bind h hf

end Rules

section Primitives

variable {s : σ} {E : String → σ → Prop}

/-- A value. -/
@[simp]
theorem wp_pure {a : α} {Q : α → σ → Prop} : Wp (pure a) s Q E ↔ Q a s := by
  unfold Wp
  exact Iff.rfl

/-- Reading the state. -/
@[simp]
theorem wp_get {Q : σ → σ → Prop} : Wp get s Q E ↔ Q s s := by
  unfold Wp
  exact Iff.rfl

/-- Changing the state. -/
@[simp]
theorem wp_modify {g : σ → σ} {Q : PUnit → σ → Prop} :
    Wp (modify g) s Q E ↔ Q ⟨⟩ (g s) := by
  unfold Wp
  exact Iff.rfl

/-- An error. -/
@[simp]
theorem wp_throw {e : String} {Q : α → σ → Prop} : Wp (throw e) s Q E ↔ E e s := by
  unfold Wp
  exact Iff.rfl

@[simp]
theorem wp_bind_get {f : σ → Prog σ β} {R : β → σ → Prop} :
    Wp (get >>= f) s R E ↔ Wp (f s) s R E := by
  unfold Wp
  exact Iff.rfl

@[simp]
theorem wp_bind_modify {g : σ → σ} {f : PUnit → Prog σ β} {R : β → σ → Prop} :
    Wp (modify g >>= f) s R E ↔ Wp (f ⟨⟩) (g s) R E := by
  unfold Wp
  exact Iff.rfl

end Primitives

/-! ## Counting loops -/

/-- `for (i = 0; i < n; i++) body(i)`. -/
def forUpto (body : Nat → Prog σ Unit) : Nat → Prog σ Unit
  | 0 => pure ()
  | n + 1 => do
    forUpto body n
    body n

/-- The invariant rule for counting loops. -/
theorem wp_forUpto {body : Nat → Prog σ Unit} {n : Nat} {s : σ} {E : String → σ → Prop}
    (I : Nat → σ → Prop) (hinit : I 0 s)
    (hbody : ∀ i < n, ∀ t, I i t → Wp (body i) t (fun _ => I (i + 1)) E) :
    Wp (forUpto body n) s (fun _ => I n) E := by
  induction n with
  | zero => exact wp_pure.mpr hinit
  | succ n ih =>
    exact Wp.bind (ih fun i hi => hbody i (by omega)) fun _ t ht => hbody n (by omega) t ht

end Lib
end Xv6
