import Mathlib.Tactic
import Xv6.Sched.Effects

/-!
# No lost wakeup

`sleep` takes the lock of its process before it gives up the lock of the condition, and
`wakeup` takes the lock of every process in turn.  So a process that is inside `sleep`
when a `wakeup` begins has been woken when it ends.

Main results:

- Theorem {lit}`Naps.step`: a sleeping process is inside `sleep` with the channel that
  its slot shows.
- Theorem {lit}`no_lost_wakeup`: the guarantee for `wakeup`, what `wakeup` leaves alone,
  and the guarantee for `wakeup1`.
-/

namespace Xv6
namespace Sched

open Lib Machine Function

/-! ## Places in `sleep` -/

namespace Pc

/-- The code is inside `sleep(ch, &k)` and has released `k`. -/
def inSleep (ch : Chan) (k : Nat) : Pc → Bool
  | .sleepSet _ ch' k' | .sleepBack _ ch' k' | .sleepAcquire ch' k' => ch' = ch ∧ k' = k
  | .intr b | .wakeup _ _ b | .wakeupSet _ _ b | .yield b | .yieldSet _ b | .yieldBack _ b
  | .sched b => b.inSleep ch k
  | _ => false

/-- The code is on its way to sleep. -/
def drowsy : Pc → Bool
  | .sleep _ _ | .sleepRelease _ _ _ | .sleepSet _ _ _ => true
  | .intr b | .wakeup _ _ b | .wakeupSet _ _ b | .yield b | .yieldSet _ b | .yieldBack _ b
  | .sched b => b.drowsy
  | _ => false

/-- The channel on which the code sleeps, or is about to after setting the state. -/
def naps : Pc → Option Chan
  | .sleepBack _ ch _ => some ch
  | .waitBack p _ => some (.proc p)
  | .sched b => b.naps
  | _ => none

/-- The code of a process that has ended, or of a free slot. -/
def ended : Pc → Bool
  | .exitRelease _ _ | .zombie | .forkret => true
  | .sched b => b.ended
  | _ => false

/-- The code waits for the outcome of an allocation or of a copy. -/
def asks : Pc → Bool
  | .forkAlloc _ _ | .forkCopy _ _ | .waitTest _ _ _ => true
  | _ => false

/-- A process at the end of `exit` is not in `sleep`. -/
theorem not_inSleep_of_ended {pc : Pc} {ch : Chan} {k : Nat} (h : pc.ended = true) :
    pc.inSleep ch k = false := by
  induction pc with
  | sched b ih => exact ih h
  | _ => first | rfl | cases h

/-- The channel of a process in `sleep`. -/
theorem naps_of_inSleep {pc : Pc} {ch : Chan} {k : Nat} (h : pc.inSleep ch k = true)
    (hnaps : pc.naps ≠ none) : pc.naps = some ch := by
  induction pc with
  | sleepBack p ch' k' =>
    obtain ⟨rfl, -⟩ : ch' = ch ∧ k' = k := by simpa [inSleep] using h
    rfl
  | sched b ih => exact ih h hnaps
  | _ => first | exact absurd rfl hnaps | cases h

/-- Code inside `sleep` that is still on its way to sleep is at the assignments. -/
theorem sleepSet_of_drowsy {pc : Pc} {ch : Chan} {k p : Nat} (h : pc.inSleep ch k = true)
    (hdrowsy : pc.drowsy = true) (hof : pc.Of p) : pc = .sleepSet p ch k := by
  induction pc with
  | sleepSet q ch' k' =>
    obtain ⟨rfl, rfl⟩ : ch' = ch ∧ k' = k := by simpa [inSleep] using h
    obtain rfl : q = p := hof
    rfl
  | intr b ih | wakeup _ _ b ih | wakeupSet _ _ b ih | yield b ih =>
    obtain ⟨hfree, hof⟩ := hof
    simp [ih h hdrowsy hof, free] at hfree
  | yieldSet _ b ih | yieldBack _ b ih =>
    obtain ⟨-, hfree, hof⟩ := hof
    simp [ih h hdrowsy hof, free] at hfree
  | sched b ih =>
    obtain ⟨hresumes, hof⟩ := hof
    simp [ih h hdrowsy hof, resumes] at hresumes
  | _ => first | cases h | cases hdrowsy

end Pc

/-- The code of the thread of process `p`, on a CPU or in its saved context. -/
def Code (m : Machine) (p : Nat) (pc : Pc) : Prop :=
  (∃ c, (m.cpu c).proc = some p ∧ (m.cpu c).pc = pc ∧ pc.Of p) ∨ (m.slot p).context = some pc

section Code

variable {m m' : Machine} {c d p : Nat} {pc : Pc} {a : Move}

/-- A process that a CPU executes has no saved context. -/
theorem Inv.context_of_proc (h : Inv m) (hproc : (m.cpu c).proc = some p)
    (hof : (m.cpu c).pc.Of p) : (m.slot p).context = none := by
  cases h.phase c with
  | active q hq _ _ _ hnone | leaving q hq _ _ _ _ hnone =>
    cases hproc.symm.trans hq
    exact hnone
  | idle hnone => simp [hproc] at hnone
  | picked i _ hpc =>
    rcases hpc with hpc | ⟨hpc, -⟩ <;> rw [hpc] at hof <;> exact hof.elim
  | saved q _ hpc | back q _ hpc =>
    rw [hpc] at hof
    exact hof.elim

/-- The code of a process that a CPU executes is the code of that CPU. -/
theorem Inv.code_of_proc (h : Inv m) (hproc : (m.cpu c).proc = some p) (hof : (m.cpu c).pc.Of p)
    (hcode : Code m p pc) : (m.cpu c).pc = pc := by
  rcases hcode with ⟨d, hd, hpc, -⟩ | hcontext
  · rw [h.one c d p hproc hd]
    exact hpc
  · simp [h.context_of_proc hproc hof] at hcontext

/-- A process has one thread. -/
theorem Inv.code_unique (h : Inv m) {pc' : Pc} (hcode : Code m p pc) (hcode' : Code m p pc') :
    pc = pc' := by
  rcases hcode with ⟨c, hproc, rfl, hof⟩ | hcontext
  · exact h.code_of_proc hproc hof hcode'
  · rcases hcode' with ⟨c, hproc, rfl, hof⟩ | hcontext'
    · exact (h.code_of_proc hproc hof (Or.inr hcontext)).symm
    · exact Option.some.inj (hcontext.symm.trans hcontext')

/-- The code of a process is its own. -/
theorem Inv.code_of (h : Inv m) (hcode : Code m p pc) : pc.Of p := by
  rcases hcode with ⟨c, -, -, hof⟩ | hcontext
  · exact hof
  · exact (h.resume p pc hcontext).2

/-- How a step of CPU `d` can change the saved context of `p`. -/
theorem Change.context {x : Slot} (h : Change m d p x) :
    x.context = (m.slot p).context ∨ ((m.cpu d).pc = .load p ∧ x.context = none) ∨
      (∃ b, (m.cpu d).pc = .sched b ∧ (m.cpu d).proc = some p ∧ x.context = some b) ∨
      ∃ q, (m.cpu d).pc = .forkAlloc q p ∧ x.context = some .forkret := by
  cases h with
  | loads hpc => exact Or.inr (Or.inl ⟨hpc, rfl⟩)
  | saves b hpc hproc => exact Or.inr (Or.inr (Or.inl ⟨b, hpc, hproc, rfl⟩))
  | setup q hpc => exact Or.inr (Or.inr (Or.inr ⟨q, hpc, rfl⟩))
  | _ => exact Or.inl rfl

/-- A place with a lock of a process is left by its own code only. -/
theorem Inv.run_of_locked (h : Inv m) (hpc : (m.cpu d).pc = pc) (hfree : pc.free = false)
    (hasks : pc.asks = false) (hstep : Sched.move m d a = some m') : Sched.run m d = some m' := by
  have hlocks : (m.cpu d).locks ≠ [] := by
    intro hnil
    have := h.free hnil
    rw [hpc, hfree] at this
    cases this
  cases a with
  | run => exact hstep
  | _ =>
    cases pc <;>
      simp [Sched.move, syscall, hpc, hlocks, Pc.handler, Pc.free, Pc.asks] at hstep hfree hasks

/-- The step at the load of a context loads it. -/
theorem Inv.load_step (h : Inv m) (hpc : (m.cpu d).pc = .load p)
    (hstep : Sched.move m d a = some m') :
    ∃ pc, (m.slot p).context = some pc ∧ (m'.cpu d).pc = pc ∧ (m'.cpu d).proc = some p := by
  obtain ⟨hproc, -, -, -⟩ := h.picked (Or.inr hpc)
  have hrun := h.run_of_locked hpc rfl rfl hstep
  simp only [Sched.run, hpc] at hrun
  obtain ⟨k, hk, rfl⟩ := Option.map_eq_some_iff.mp hrun
  exact ⟨k, hk, by simp, by simpa using hproc⟩

/-- A step leaves the code of a process alone, unless it is a step of this code. -/
theorem Inv.code_step (h : Inv m) (hstep : Sched.move m d a = some m')
    (hused : (m.slot p).state ≠ .unused) (hcode : Code m p pc) :
    Code m' p pc ∨ ((m.cpu d).proc = some p ∧ (m.cpu d).pc = pc ∧ pc.Of p) := by
  rcases hcode with ⟨c, hproc, hpc, hof⟩ | hcontext
  · obtain rfl | hcd := eq_or_ne c d
    · exact Or.inr ⟨hproc, hpc, hof⟩
    · have hcpu := (effect_move hstep).cpu c hcd
      exact Or.inl (Or.inl ⟨c, by rw [hcpu, hproc], by rw [hcpu, hpc], hof⟩)
  · left
    obtain hsame | ⟨hload, -⟩ | ⟨b, hsched, hproc, -⟩ | ⟨q, hfork, -⟩ :=
      ((effect_move hstep).slots p).context
    · exact Or.inr (hsame.trans hcontext)
    · obtain ⟨k, hk, hpc, hproc⟩ := h.load_step hload hstep
      cases hk.symm.trans hcontext
      exact Or.inl ⟨d, hproc, hpc, (h.resume p _ hk).2⟩
    · obtain ⟨q, hq, -, -, -, hnone, -⟩ := h.leaving hsched rfl
      cases hproc.symm.trans hq
      simp [hnone] at hcontext
    · exact absurd (h.setup hfork (by simp [Pc.setup])).1 hused

/-- The code of a process after a step: as before, or put there by a step of this code,
or set up by a `fork` in a free slot. -/
theorem Inv.code_back (h : Inv m) (hstep : Sched.move m d a = some m') (hcode : Code m' p pc) :
    Code m p pc ∨
      ((m.cpu d).proc = some p ∧ (m.cpu d).pc.Of p ∧
        (((m'.cpu d).pc = pc ∧ pc.Of p) ∨ (m.cpu d).pc = .sched pc)) ∨
      (pc = .forkret ∧ (m.slot p).state = .unused) := by
  have heffect := effect_move hstep
  rcases hcode with ⟨c, hproc, hpc, hof⟩ | hcontext
  · obtain rfl | hcd := eq_or_ne c d
    · have hproc₀ : (m.cpu c).proc = some p := by
        rcases heffect.proc with hsame | ⟨hnone, -⟩ | ⟨i, hdispatch⟩
        · exact hsame.symm.trans hproc
        · simp [hproc] at hnone
        · rw [hpc] at hdispatch
          rw [hdispatch] at hof
          exact hof.elim
      cases h.phase c with
      | idle hnone => simp [hproc₀] at hnone
      | active q hq hof₀ | leaving q hq hof₀ =>
        cases hproc₀.symm.trans hq
        exact Or.inr (Or.inl ⟨hproc₀, hof₀, Or.inl ⟨hpc, hof⟩⟩)
      | picked i hi hpc₀ =>
        cases hproc₀.symm.trans hi
        rcases hpc₀ with hpc₀ | ⟨hpc₀, -⟩
        · have hrun := h.run_of_locked hpc₀ rfl rfl hstep
          simp only [Sched.run, hpc₀] at hrun
          cases hrun
          obtain rfl : Pc.load p = pc := by simpa using hpc
          exact hof.elim
        · obtain ⟨k, hk, hpc', -⟩ := h.load_step hpc₀ hstep
          exact Or.inl (Or.inr (hk.trans (by rw [← hpc', hpc])))
      | saved q hq hpc₀ _ _ _ hback =>
        have hrun := h.run_of_locked hpc₀ rfl rfl hstep
        simp only [Sched.run, hpc₀, hback, Option.map_some] at hrun
        cases hrun
        obtain rfl : Pc.back q = pc := by simpa using hpc
        exact hof.elim
      | back i hi hpc₀ =>
        have hrun := h.run_of_locked hpc₀ rfl rfl hstep
        simp only [Sched.run, hpc₀] at hrun
        cases hrun
        simp at hproc
    · have hcpu := heffect.cpu c hcd
      exact Or.inl (Or.inl ⟨c, by rw [← hcpu, hproc], by rw [← hcpu, hpc], hof⟩)
  · obtain hsame | ⟨-, hnone⟩ | ⟨b, hsched, hproc, hb⟩ | ⟨q, hfork, hret⟩ :=
      ((effect_move hstep).slots p).context
    · exact Or.inl (Or.inr (hsame.symm.trans hcontext))
    · simp [hnone] at hcontext
    · obtain ⟨q, hq, hof, -⟩ := h.leaving hsched rfl
      cases hproc.symm.trans hq
      cases hb.symm.trans hcontext
      exact Or.inr (Or.inl ⟨hproc, hsched ▸ hof, Or.inr hsched⟩)
    · refine Or.inr (Or.inr ⟨Option.some.inj (hcontext.symm.trans hret), ?_⟩)
      exact (h.setup hfork (by simp [Pc.setup])).1

/-- The code of a process after a step of its CPU. -/
theorem Inv.code_own (h : Inv m) (hstep : Sched.move m d a = some m')
    (hproc : (m.cpu d).proc = some p) (hof : (m.cpu d).pc.Of p) (hcode : Code m' p pc) :
    (m'.cpu d).pc = pc ∨ (m.cpu d).pc = .sched pc := by
  have hnone := h.context_of_proc hproc hof
  rcases hcode with ⟨c, hc, hpc, -⟩ | hcontext
  · obtain rfl | hcd := eq_or_ne c d
    · exact Or.inl hpc
    · rw [(effect_move hstep).cpu c hcd] at hc
      exact absurd (h.one c d p hc hproc) hcd
  · obtain hsame | ⟨-, hload⟩ | ⟨b, hsched, -, hb⟩ | ⟨q, hfork, -⟩ :=
      ((effect_move hstep).slots p).context
    · simp [hsame, hnone] at hcontext
    · simp [hload] at hcontext
    · cases hb.symm.trans hcontext
      exact Or.inr hsched
    · exact absurd (h.setup hfork (by simp [Pc.setup])).1 (h.used hproc)

end Code

/-! ## Where a CPU goes -/

section Leads

variable {m m' : Machine} {c p k : Nat} {ch : Chan} {old pc : Pc} {a : Move}

/-- Interrupts do not count. -/
theorem Pc.drowsy_inner (pc : Pc) : pc.inner.drowsy = pc.drowsy := by
  induction pc with
  | intr b ih | wakeup _ _ b ih | wakeupSet _ _ b ih | yield b ih | yieldSet _ b ih
  | yieldBack _ b ih | sched b ih => exact ih
  | _ => rfl

/-- Interrupts do not count. -/
theorem Pc.inSleep_inner (pc : Pc) : pc.inner.inSleep ch k = pc.inSleep ch k := by
  induction pc with
  | intr b ih | wakeup _ _ b ih | wakeupSet _ _ b ih | yield b ih | yieldSet _ b ih
  | yieldBack _ b ih | sched b ih => exact ih
  | _ => rfl

/-- User code is not about to sleep. -/
theorem Pc.not_drowsy_of_plain (h : pc.plain = true) : pc.drowsy = false := by
  cases pc <;> first | rfl | cases h

/-- Code that is not on its way to sleep gets there by a call of `sleep` only. -/
theorem Leads.drowsy (h : Leads m m' a old pc) (hof : old.Of p) (hawake : old.drowsy = false)
    (hcall : ∀ x k, a ≠ .sleep x k) : pc.drowsy = false := by
  cases h with
  | scheduler hold => exact absurd hof (hold p)
  | inner hinner => rw [← Pc.drowsy_inner, hinner, Pc.drowsy_inner, hawake]
  | calls hold hpc => rw [← Pc.drowsy_inner, Pc.not_drowsy_of_plain hpc]
  | sleep ha => exact absurd ha (hcall _ _)
  | sleepRelease | sleepSet | sleepBack => cases hawake
  | _ => rfl

/-- Code inside `sleep` stays there while the lock of the condition is taken. -/
theorem Leads.inSleep (h : Leads m m' a old pc) (hof : old.Of p) (hin : old.inSleep ch k = true)
    (hlock : m.lock (.other k) ≠ none) :
    pc.inSleep ch k = true ∨ ∃ b, old = .sched b ∧ pc = .swtch := by
  cases h with
  | scheduler hold => exact absurd hof (hold p)
  | inner hinner => exact Or.inl (by rw [← Pc.inSleep_inner, hinner, Pc.inSleep_inner, hin])
  | switches => exact Or.inr ⟨_, rfl, rfl⟩
  | calls hold => cases old <;> first | cases hin | cases hold
  | sleepBack | sleepAcquire => exact Or.inl hin
  | slept hfree =>
    obtain ⟨-, rfl⟩ : _ = ch ∧ _ = k := by simpa [Pc.inSleep] using hin
    exact absurd hfree hlock
  | waitScan hold => rcases hold with rfl | rfl <;> cases hin
  | _ => cases hin

end Leads

/-! ## Sleeping processes -/

/-- A sleeping process is inside `sleep` with the channel that its slot shows, and the
code of a process that has ended is behind the assignments of `exit`. -/
structure Naps (m : Machine) : Prop where
  chan : ∀ p, (m.slot p).state = .sleeping →
    (m.slot p).chan ≠ none ∧ ∀ pc, Code m p pc → pc.naps = (m.slot p).chan
  ended : ∀ p, (m.slot p).state = .unused ∨ (m.slot p).state = .zombie →
    ∀ pc, Code m p pc → pc.ended = true

section Naps

variable {m m' : Machine} {c d p : Nat} {pc : Pc} {a : Move}

/-- Where a sleeping process comes from. -/
theorem Change.sleeping {x : Slot} (h : Change m d p x) (hsleep : x.state = .sleeping) :
    ((m.slot p).state = .sleeping ∧ (x.chan = (m.slot p).chan ∨
      (∃ ch k, (m.cpu d).pc = .sleepBack p ch k) ∨ ∃ addr, (m.cpu d).pc = .waitBack p addr)) ∨
    (∃ ch k, (m.cpu d).pc = .sleepSet p ch k ∧ x.chan = some ch) ∨
    ∃ addr, (m.cpu d).pc = .waitSleep p addr ∧ x.chan = some (.proc p) := by
  cases h with
  | sleeps ch k hpc => exact Or.inr (Or.inl ⟨ch, k, hpc, rfl⟩)
  | waits addr hpc => exact Or.inr (Or.inr ⟨addr, hpc, rfl⟩)
  | rises hpc => exact Or.inl ⟨hsleep, Or.inr hpc⟩
  | kills =>
    rcases Slot.state_kill (m.slot p) with hsame | ⟨-, hrun⟩
    · exact Or.inl ⟨hsame ▸ hsleep, Or.inl rfl⟩
    · rw [hrun] at hsleep
      cases hsleep
  | names q pid hpc hstate => exact Or.inl ⟨hsleep, Or.inl rfl⟩
  | same | loads | saves | setup | adopts => exact Or.inl ⟨hsleep, Or.inl rfl⟩
  | wakes | runs | yields | fails | born | dies | reaped => cases hsleep

/-- Where a process that has ended, or a free slot, comes from. -/
theorem Change.ended {x : Slot} (h : Change m d p x) (hinv : Inv m)
    (hend : x.state = .unused ∨ x.state = .zombie) :
    ((m.slot p).state = .unused ∨ (m.slot p).state = .zombie) ∨
      ∃ status q, (m.cpu d).pc = .exitZombie p status q := by
  cases h with
  | dies status q hpc => exact Or.inr ⟨status, q, hpc⟩
  | reaped q addr hpc hstate => exact Or.inl (Or.inr hstate)
  | fails q hpc =>
    rcases hpc with hpc | hpc <;> exact Or.inl (Or.inl (hinv.setup hpc (by simp [Pc.setup])).1)
  | kills =>
    rcases Slot.state_kill (m.slot p) with hsame | ⟨-, hrun⟩
    · exact Or.inl (hsame ▸ hend)
    · simp [hrun] at hend
  | same | loads | saves | setup | adopts | rises | names => exact Or.inl hend
  | wakes | runs | yields | born | sleeps | waits => simp [Slot.sleep] at hend

/-- A process that is not running and whose code a CPU executes is about to be left. -/
theorem Inv.leaving_of_not_running (h : Inv m) (hproc : (m.cpu c).proc = some p)
    (hof : (m.cpu c).pc.Of p) (hstate : (m.slot p).state ≠ .running) :
    (m.cpu c).pc.leaving = true := by
  rcases h.locked_or_running hproc with hlock | ⟨hrun, -⟩
  · cases h.phase c with
    | leaving q hq _ hleave => exact hleave
    | active q hq _ _ hrun =>
      cases hproc.symm.trans hq
      exact absurd hrun hstate
    | idle hnone => simp [hproc] at hnone
    | picked i _ hpc =>
      rcases hpc with hpc | ⟨hpc, -⟩ <;> rw [hpc] at hof <;> exact hof.elim
    | saved q _ hpc | back q _ hpc =>
      rw [hpc] at hof
      exact hof.elim
  · exact absurd hrun hstate

/-- The step of a CPU that leaves a process. -/
theorem Inv.leave_step (h : Inv m) (hleave : (m.cpu c).pc.leaving = true)
    (hstep : Sched.move m c a = some m') :
    (m'.cpu c).pc = (m.cpu c).pc ∨ (m'.cpu c).pc = .swtch ∨
      (m'.cpu c).pc = .sched .zombie ∧ (∃ p q, (m.cpu c).pc = .exitRelease p q) := by
  obtain ⟨b, hpc⟩ | ⟨p, q, hpc⟩ := Pc.leaving_cases hleave
  all_goals
    have hrun := h.run_of_locked hpc rfl rfl hstep
    simp only [Sched.run, hpc] at hrun
  · rcases sched_cases hrun with ⟨msg, rfl⟩ | ⟨p, -, rfl⟩
    · exact Or.inl rfl
    · exact Or.inr (Or.inl (by simp))
  · obtain rfl := release_eq hrun (h.lock_of_held (by simp [Cpu.held, Pc.held, hpc]))
    exact Or.inr (Or.inr ⟨by simp, p, q, hpc⟩)

/-- The code of a process whose CPU goes to another place. -/
theorem Inv.code_goto {m₁ : Machine} (h : Inv (m₁.goto d pc)) {b : Pc}
    (hproc : (m₁.cpu d).proc = some p)
    (hof : pc.Of p) (hcode : Code (m₁.goto d pc) p b) : b = pc := by
  have hcpu := h.code_of_proc (c := d) (by simpa using hproc) (by simpa using hof) hcode
  simpa using hcpu.symm

/-- The step lemma. -/
theorem Naps.move (hn : Naps m) (h : Inv m) (hstep : Sched.move m d a = some m') : Naps m' where
  chan p hsleep := by
    have h' := h.move hstep
    rcases ((effect_move hstep).slots p).sleeping hsleep with
      ⟨hbefore, hchan⟩ | ⟨ch, k, hpc, hchan⟩ | ⟨addr, hpc, hchan⟩
    · obtain ⟨hne, hcode⟩ := hn.chan p hbefore
      -- only the process itself clears `chan`, and it is not running
      have hchan : (m'.slot p).chan = (m.slot p).chan := by
        rcases hchan with hsame | ⟨ch, k, hpc⟩ | ⟨addr, hpc⟩
        · exact hsame
        · obtain ⟨q, ha, rfl⟩ := h.active hpc rfl id
          simp [ha.state] at hbefore
        · obtain ⟨q, ha, rfl⟩ := h.active hpc rfl id
          simp [ha.state] at hbefore
      rw [hchan]
      refine ⟨hne, fun pc hpc => ?_⟩
      rcases h.code_back hstep hpc with hsame | ⟨hproc, hof, hown⟩ | ⟨-, hunused⟩
      · exact hcode pc hsame
      · have hcur := hcode _ (Or.inl ⟨d, hproc, rfl, hof⟩)
        have hleave := h.leaving_of_not_running hproc hof (by simp [hbefore])
        rcases hown with ⟨rfl, hof'⟩ | hsched
        · rcases h.leave_step hleave hstep with heq | heq | ⟨-, q, r, hexit⟩
          · rw [heq, hcur]
          · rw [heq] at hof'
            exact hof'.elim
          · rw [hexit] at hcur
            exact absurd hcur.symm hne
        · rw [hsched] at hcur
          exact hcur
      · simp [hunused] at hbefore
    · obtain ⟨q, ha, rfl⟩ := h.active hpc rfl id
      have hrun := h.run_of_locked hpc rfl rfl hstep
      simp only [Sched.run, hpc] at hrun
      cases hrun
      rw [hchan]
      refine ⟨by simp, fun pc hcode => ?_⟩
      rw [h'.code_goto ha.proc ⟨rfl, rfl⟩ hcode]
      rfl
    · obtain ⟨q, ha, rfl⟩ := h.active hpc rfl id
      have hrun := h.run_of_locked hpc rfl rfl hstep
      simp only [Sched.run, hpc] at hrun
      cases hrun
      rw [hchan]
      refine ⟨by simp, fun pc hcode => ?_⟩
      rw [h'.code_goto ha.proc ⟨rfl, rfl⟩ hcode]
      rfl
  ended p hend := by
    intro pc hcode
    have h' := h.move hstep
    rcases ((effect_move hstep).slots p).ended h hend with hbefore | ⟨status, q, hpc⟩
    · rcases h.code_back hstep hcode with hsame | ⟨hproc, hof, hown⟩ | ⟨rfl, -⟩
      · exact hn.ended p hbefore pc hsame
      · have hcur := hn.ended p hbefore _ (Or.inl ⟨d, hproc, rfl, hof⟩)
        have hleave :=
          h.leaving_of_not_running hproc hof (by rcases hbefore with h | h <;> simp [h])
        rcases hown with ⟨rfl, hof'⟩ | hsched
        · rcases h.leave_step hleave hstep with heq | heq | ⟨heq, -⟩
          · rw [heq, hcur]
          · rw [heq] at hof'
            exact hof'.elim
          · rw [heq]
            rfl
        · rw [hsched] at hcur
          exact hcur
      · rfl
    · obtain ⟨q', ha, rfl⟩ := h.active hpc rfl id
      have hrun := h.run_of_locked hpc rfl rfl hstep
      simp only [Sched.run, hpc, Sched.exitZombie] at hrun
      split at hrun <;> cases hrun
      · rcases hend with hend | hend <;> exact absurd (ha.state.symm.trans hend) (by simp)
      · rw [h'.code_goto ha.proc rfl hcode]
        rfl

/-- It holds at boot. -/
theorem naps_boot : Naps boot where
  chan p hsleep := by
    by_cases hp : p = 0 <;> simp [boot, hp, Slot.zero] at hsleep
  ended p hend pc hcode := by
    rcases hcode with ⟨c, hproc, -⟩ | hcontext
    · simp [boot] at hproc
    · by_cases hp : p = 0 <;> simp [boot, hp, Slot.zero] at hcontext hend

end Naps

/-! ## A call of `wakeup` -/

/-- Process `p` is inside `sleep(ch, &k)` and has released `k`. -/
def InSleep (m : Machine) (p : Nat) (ch : Chan) (k : Nat) : Prop :=
  ∃ pc, Code m p pc ∧ pc.inSleep ch k = true

/-- Process `p` is sleeping on `ch`. -/
def Asleep (m : Machine) (p : Nat) (ch : Chan) : Prop :=
  (m.slot p).state = .sleeping ∧ (m.slot p).chan = some ch

/-- Process `p` neither sleeps nor is on its way to sleep. -/
structure Risen (m : Machine) (p : Nat) : Prop where
  state : (m.slot p).state ≠ .sleeping
  code : ∀ pc, Code m p pc → pc.drowsy = false

/-- Process `p` does not begin to sleep, neither by a call of `sleep` nor in `wait`. -/
def StaysUp (p : Nat) (m : Machine) (a : Act) : Prop :=
  (m.cpu a.cpu).proc = some p →
    (∀ x k, a.move ≠ .sleep x k) ∧ ∀ addr, (m.cpu a.cpu).pc ≠ .waitSleep p addr

/-- The `wakeup(ch)` that CPU `w` executes with `k` held has not passed slot `p`, which is
inside `sleep(ch, &k)`. -/
structure Coming (m : Machine) (w p : Nat) (ch : Chan) (k : Nat) : Prop where
  sleeper : InSleep m p ch k
  lock : m.lock (.other k) = some w
  place : ∃ i b, i ≤ p ∧ ((m.cpu w).pc = .wakeup ch i b ∨ (m.cpu w).pc = .wakeupSet ch i b)

section Wakeup

variable {m m' : Machine} {c d p w k : Nat} {ch : Chan} {pc : Pc} {a : Move}

/-- A process that does not call `sleep` stays up. -/
theorem Risen.move (hr : Risen m p) (h : Inv m) (hrule : StaysUp p m ⟨d, a⟩)
    (hstep : Sched.move m d a = some m') : Risen m' p where
  state hsleep := by
    obtain ⟨hbefore, -⟩ | ⟨ch, k, hpc, -⟩ | ⟨addr, hpc, -⟩ :=
      ((effect_move hstep).slots p).sleeping hsleep
    · exact hr.state hbefore
    · obtain ⟨q, ha, rfl⟩ := h.active hpc rfl id
      have := hr.code _ (Or.inl ⟨d, ha.proc, rfl, ha.of⟩)
      rw [hpc] at this
      cases this
    · obtain ⟨q, ha, rfl⟩ := h.active hpc rfl id
      exact (hrule ha.proc).2 addr hpc
  code pc hcode := by
    rcases h.code_back hstep hcode with hsame | ⟨hproc, hof, hown⟩ | ⟨rfl, -⟩
    · exact hr.code pc hsame
    · have hcur := hr.code _ (Or.inl ⟨d, hproc, rfl, hof⟩)
      rcases hown with ⟨rfl, -⟩ | hsched
      · rcases (effect_move hstep).next with heq | hleads
        · rw [heq, hcur]
        · exact hleads.drowsy hof hcur (hrule hproc).1
      · rw [hsched] at hcur
        exact hcur
    · rfl

/-- A process in `sleep` executes its own code. -/
theorem Inv.of_of_inSleep (h : Inv m) (hproc : (m.cpu c).proc = some p)
    (hin : (m.cpu c).pc.inSleep ch k = true) : (m.cpu c).pc.Of p := by
  cases h.phase c with
  | active q hq hof | leaving q hq hof =>
    cases hproc.symm.trans hq
    exact hof
  | idle hnone => simp [hproc] at hnone
  | picked i _ hpc => rcases hpc with hpc | ⟨hpc, -⟩ <;> simp [hpc, Pc.inSleep] at hin
  | saved q _ hpc | back q _ hpc => simp [hpc, Pc.inSleep] at hin

/-- A process inside `sleep` stays there as long as the lock of the condition is taken. -/
theorem InSleep.move (hs : InSleep m p ch k) (h : Inv m) (hn : Naps m)
    (hlock : m.lock (.other k) ≠ none) (hstep : Sched.move m d a = some m') :
    InSleep m' p ch k := by
  obtain ⟨pc, hcode, hin⟩ := hs
  have hused : (m.slot p).state ≠ .unused := by
    intro hunused
    rw [Pc.not_inSleep_of_ended (hn.ended p (Or.inl hunused) pc hcode)] at hin
    cases hin
  rcases h.code_step hstep hused hcode with hsame | ⟨hproc, rfl, hof⟩
  · exact ⟨pc, hsame, hin⟩
  · have hnext : (m'.cpu d).pc.inSleep ch k = true ∨
        ∃ b, (m.cpu d).pc = .sched b ∧ (m'.cpu d).pc = .swtch := by
      rcases (effect_move hstep).next with heq | hleads
      · exact Or.inl (heq ▸ hin)
      · exact hleads.inSleep hof hin hlock
    rcases hnext with hin' | ⟨b, hpc, hpc'⟩
    · have hproc' : (m'.cpu d).proc = some p := by
        rcases (effect_move hstep).proc with hsame | ⟨-, i, hback⟩ | ⟨i, hdispatch⟩
        · exact hsame.trans hproc
        · simp [hback, Pc.inSleep] at hin
        · simp [hdispatch, Pc.inSleep] at hin'
      exact ⟨_, Or.inl ⟨d, hproc', rfl, (h.move hstep).of_of_inSleep hproc' hin'⟩, hin'⟩
    · have hrun := h.run_of_locked hpc rfl rfl hstep
      simp only [Sched.run, hpc] at hrun hin
      rcases sched_cases hrun with ⟨msg, rfl⟩ | ⟨q, hq, rfl⟩
      · simp [Machine.panic, hpc] at hpc'
      · cases hq.symm.trans hproc
        exact ⟨b, Or.inr (by simp), hin⟩

/-- The step of `wakeup` at slot `i` leaves no sleeper there. -/
theorem not_asleep_wakeup {x : Slot} :
    ¬((x.wakeup ch).state = .sleeping ∧ (x.wakeup ch).chan = some ch) := by
  unfold Slot.wakeup
  split
  · simp
  next hnot => exact hnot

/-- A process inside `sleep` that is on its way to sleep has its lock. -/
theorem InSleep.locked (hs : InSleep m p ch k) (h : Inv m) (hcode : Code m p pc)
    (hdrowsy : pc.drowsy = true) : m.lock (.proc p) ≠ none := by
  obtain ⟨pc', hcode', hin⟩ := hs
  obtain rfl := h.code_unique hcode' hcode
  obtain rfl := Pc.sleepSet_of_drowsy hin hdrowsy (h.code_of hcode)
  rcases hcode with ⟨c, -, hpc, -⟩ | hcontext
  · rw [h.lock_of_held (c := c) (by simp [Cpu.held, Pc.held, hpc])]
    simp
  · cases (h.resume p _ hcontext).1

/-- A process inside `sleep(ch, &k)` sleeps on no other channel. -/
theorem InSleep.asleep (hs : InSleep m p ch k) (hn : Naps m)
    (hsleep : (m.slot p).state = .sleeping) :
    Asleep m p ch := by
  obtain ⟨pc, hcode, hin⟩ := hs
  obtain ⟨hne, hnaps⟩ := hn.chan p hsleep
  refine ⟨hsleep, ?_⟩
  rw [← hnaps pc hcode] at hne ⊢
  exact Pc.naps_of_inSleep hin hne

/-- A step of the `wakeup` of CPU `w`: it goes on, or it wakes process `p`. -/
theorem Coming.own_move (hc : Coming m w p ch k) (hp : p < nproc) (h : Inv m) (hn : Naps m)
    (hstep : Sched.move m w a = some m') : Risen m' p ∨ Coming m' w p ch k := by
  have hlocks : .other k ∈ (m.cpu w).locks := (h.lock _ _).mp hc.lock
  have hnil : (m.cpu w).locks ≠ [] := fun hnil => by simp [hnil] at hlocks
  have hsleeper := hc.sleeper.move h hn (by simp [hc.lock]) hstep
  obtain ⟨i, b, hi, hpc | hpc⟩ := hc.place
  · -- with `k` held there is no interrupt
    have hrun : Sched.run m w = some m' := by
      cases a with
      | run => exact hstep
      | _ => simp [Sched.move, syscall, hpc, hnil, Pc.handler] at hstep
    simp only [Sched.run, hpc, if_pos (Nat.lt_of_le_of_lt hi hp)] at hrun
    right
    rcases acquire_cases hrun with ⟨-, rfl⟩ | ⟨-, rfl⟩
    · exact ⟨hsleeper, by simpa using hc.lock, i, b, hi, Or.inr (by simp)⟩
    · exact ⟨hsleeper, hc.lock, i, b, hi, Or.inl hpc⟩
  · have hheld : m.lock (.proc i) = some w := h.lock_of_held (by simp [Cpu.held, Pc.held, hpc])
    have hrun := h.run_of_locked hpc rfl rfl hstep
    simp only [Sched.run, hpc] at hrun
    obtain rfl := release_eq hrun hheld
    rcases Nat.lt_or_eq_of_le hi with hlt | rfl
    · exact Or.inr ⟨hsleeper, by simpa using hc.lock, i + 1, b, hlt, Or.inl (by simp)⟩
    · refine Or.inl ⟨fun hsleep => ?_, fun pc hcode => ?_⟩
      · have hasleep := hsleeper.asleep (hn.move h hstep) hsleep
        simp only [Asleep, gave_slot, setSlot_slot, update_self] at hasleep
        exact not_asleep_wakeup hasleep
      · refine Bool.eq_false_iff.mpr fun hdrowsy => ?_
        exact hsleeper.locked (h.move hstep) hcode hdrowsy (by simp)

/-- The step lemma: the `wakeup` comes nearer, or `p` is up. -/
theorem Coming.move (hc : Coming m w p ch k) (hp : p < nproc) (h : Inv m) (hn : Naps m)
    (hstep : Sched.move m d a = some m') : Risen m' p ∨ Coming m' w p ch k := by
  obtain rfl | hd := eq_or_ne w d
  · exact hc.own_move hp h hn hstep
  · have hcpu := (effect_move hstep).cpu w hd
    have hlocks := (h.lock _ _).mp hc.lock
    refine Or.inr ⟨hc.sleeper.move h hn (by simp [hc.lock]) hstep, ?_, by rw [hcpu]; exact hc.place⟩
    exact ((h.move hstep).lock _ _).mpr (by rw [hcpu]; exact hlocks)

end Wakeup

/-! ## The result -/

/-- What `sleep` and `wakeup` promise in state `m`. -/
structure NoLostWakeup (m : Machine) : Prop where
  /-- A process inside `sleep(ch, &k)` when a CPU with `k` begins `wakeup(ch)` does not
  sleep on `ch` when the call is over, unless it has gone to sleep again. -/
  wakes : ∀ w ch k p b, p < nproc → (m.cpu w).pc = .wakeup ch 0 b → m.lock (.other k) = some w →
    InSleep m p ch k → ∀ m₂ b₂, Run step (StaysUp p) m m₂ → (m₂.cpu w).pc = .wakeup ch nproc b₂ →
      ¬Asleep m₂ p ch
  /-- A step of `wakeup(ch)` changes a process that sleeps on `ch`, and no other. -/
  others : ∀ w ch i b a m₂, (m.cpu w).pc = .wakeup ch i b ∨ (m.cpu w).pc = .wakeupSet ch i b →
    step m ⟨w, a⟩ = some m₂ → ∀ j, ¬Asleep m j ch → m₂.slot j = m.slot j
  /-- The target of `wakeup1`, which is `initproc` or the parent, does not sleep on itself
  after it. -/
  wakes1 : ∀ c p status m₂, step m ⟨c, .run⟩ = some m₂ →
    ((m.cpu c).pc = .exitWake p status → ¬Asleep m₂ m.initproc (.proc m.initproc)) ∧
      ∀ q, (m.cpu c).pc = .exitZombie p status q → ¬Asleep m₂ q (.proc q)

section Result

variable {m m₂ : Machine} {c w p q k : Nat} {ch : Chan} {b : Pc} {status : Int}

/-- A step is a move of its CPU. -/
theorem move_of_step {a : Act} (hstep : step m a = some m₂) :
    Sched.move m a.cpu a.move = some m₂ := by
  obtain ⟨-, hstep⟩ := Option.ite_none_right_eq_some.mp hstep
  exact hstep

/-- The run lemma for a call of `wakeup`. -/
theorem Coming.run (hc : Coming m w p ch k) (hp : p < nproc) (h : Inv m) (hn : Naps m)
    (hrun : Run step (StaysUp p) m m₂) : Risen m₂ p ∨ Coming m₂ w p ch k := by
  refine (hrun.invariant (I := fun t => (Inv t ∧ Naps t) ∧ (Risen t p ∨ Coming t w p ch k))
    ⟨⟨h, hn⟩, Or.inr hc⟩ ?_).2
  rintro t a t' ⟨⟨ht, hnt⟩, hj⟩ hrule hstep
  have hmove := move_of_step hstep
  refine ⟨⟨ht.move hmove, hnt.move ht hmove⟩, ?_⟩
  rcases hj with hr | hc
  · exact Or.inl (hr.move ht hrule hmove)
  · exact hc.move hp ht hnt hmove

/-- Between two slots `wakeup` changes none. -/
theorem slot_of_wakeup {i : Nat} {a : Move} (hpc : (m.cpu c).pc = .wakeup ch i b)
    (hstep : Sched.move m c a = some m₂) : m₂.slot = m.slot := by
  cases a with
  | run =>
    simp only [Sched.move, Sched.run, hpc] at hstep
    split at hstep
    · rcases acquire_cases hstep with ⟨-, rfl⟩ | ⟨-, rfl⟩ <;> rfl
    · cases hstep
      rfl
  | intr | timer =>
    obtain ⟨-, ⟨⟩⟩ := Option.ite_none_right_eq_some.mp hstep
    rfl
  | _ => simp [Sched.move, syscall, hpc, Pc.handler] at hstep

/-- `wakeup1` leaves no sleeper on its channel. -/
theorem not_asleep_wakeup1 {x : Slot} :
    ¬((x.wakeup1 q).state = .sleeping ∧ (x.wakeup1 q).chan = some (.proc q)) := by
  unfold Slot.wakeup1
  split
  · simp
  next hnot => exact fun h => hnot h.symm

/-- `exit` wakes the parent that it has locked. -/
theorem Inv.wakes_parent (h : Inv m) (hpc : (m.cpu c).pc = .exitZombie p status q)
    (hrun : Sched.run m c = some m₂) : ¬Asleep m₂ q (.proc q) := by
  have hpq : q ≠ p := by
    have hdistinct := h.distinct c
    rintro rfl
    simp [Cpu.held, Pc.held, hpc] at hdistinct
  have hlock : m.lock (.proc q) = some c := h.lock_of_held (by simp [Cpu.held, Pc.held, hpc])
  simp only [Sched.run, hpc, Sched.exitZombie, hlock, ne_eq, not_true_eq_false, if_false] at hrun
  cases hrun
  simp only [Asleep, goto_slot, setSlot_slot, update_of_ne hpq, update_self]
  exact not_asleep_wakeup1

/-- What the invariants say of `sleep` and `wakeup`. -/
theorem Inv.noLostWakeup (h : Inv m) (hn : Naps m) : NoLostWakeup m where
  wakes w ch k p b hp hpc hlock hin m₂ b₂ hrun hend hasleep := by
    have hc : Coming m w p ch k := ⟨hin, hlock, 0, b, Nat.zero_le p, Or.inl hpc⟩
    rcases hc.run hp h hn hrun with hr | ⟨-, -, i, b', hi, hpc' | hpc'⟩
    · exact hr.state hasleep.1
    · rw [hend] at hpc'
      injection hpc' with _ hi'
      omega
    · rw [hend] at hpc'
      cases hpc'
  others w ch i b a m₂ hpc hstep j hj := by
    have hmove := move_of_step hstep
    rcases hpc with hpc | hpc
    · rw [slot_of_wakeup hpc hmove]
    · have hrun := h.run_of_locked hpc rfl rfl hmove
      simp only [Sched.run, hpc] at hrun
      rw [slot_of_setRelease hrun]
      obtain rfl | hji := eq_or_ne j i
      · rw [update_self]
        exact if_neg hj
      · rw [update_of_ne hji]
  wakes1 c p status m₂ hstep := by
    have hrun : Sched.run m c = some m₂ := move_of_step hstep
    constructor
    · intro hpc
      simp only [Sched.run, hpc] at hrun
      simp only [Asleep, slot_of_setRelease hrun, update_self]
      exact not_asleep_wakeup1
    · intro q hpc
      exact h.wakes_parent hpc hrun

/-- No lost wakeup, in every state that any number of CPUs reach. -/
theorem no_lost_wakeup {n : Nat} (hrun : Run step (Cpus n) boot m) : NoLostWakeup m := by
  have hinv := hrun.invariant (I := fun t => Inv t ∧ Naps t) ⟨inv_boot, naps_boot⟩
    fun t a t' ⟨ht, hnt⟩ _ hstep =>
      ⟨ht.step hstep, hnt.move ht (move_of_step hstep)⟩
  exact hinv.1.noLostWakeup hinv.2

/-- The code goes on, and not to sleep in `wait`. -/
def goesOn (m : Machine) (a : Act) : Bool :=
  match a.move, (m.cpu a.cpu).pc with
  | .run, .waitSleep _ _ => false
  | .run, _ => true
  | _, _ => false

/-- A move that does not go back to sleep. -/
theorem staysUp_of_goesOn {a : Act} (hgoes : goesOn m a = true) : StaysUp p m a := by
  refine fun _ => ⟨fun x k hmove => ?_, fun addr hpc => ?_⟩
  · simp [goesOn, hmove] at hgoes
  · cases hmove : a.move <;> simp [goesOn, hmove, hpc] at hgoes

/-- Process 0 has released lock 7 inside `sleep` when an interrupt on CPU 1 takes it and
calls `wakeup`. -/
theorem no_lost_wakeup_one_sleeper : ∃ m m₂, Run step (Cpus 2) boot m ∧
    (m.cpu 1).pc = .wakeup (.addr 9) 0 (.intr (.scan 0)) ∧ InSleep m 0 (.addr 9) 7 ∧
    Run step (StaysUp 0) m m₂ ∧ (m₂.cpu 1).pc = .wakeup (.addr 9) nproc (.intr (.scan 0)) ∧
    ¬Asleep m₂ 0 (.addr 9) := by
  have hexec : (exec step (fun _ a => a.cpu < 2) boot
      (List.replicate 5 ⟨0, .run⟩ ++ [⟨0, .acquire 7⟩, ⟨0, .sleep 9 7⟩, ⟨0, .run⟩, ⟨0, .run⟩,
        ⟨1, .intr⟩, ⟨1, .acquire 7⟩, ⟨1, .wakeup (.addr 9)⟩])).map
      (fun m => ((m.cpu 1).pc, m.lock (.other 7), (m.cpu 0).proc, (m.cpu 0).pc,
        (exec step (fun m a => goesOn m a = true) m
          (List.replicate 5 ⟨0, .run⟩ ++ List.replicate 128 ⟨1, .run⟩)).map
            fun m => (m.cpu 1).pc)) =
      some (.wakeup (.addr 9) 0 (.intr (.scan 0)), some 1, some 0, .sleepSet 0 (.addr 9) 7,
        some (.wakeup (.addr 9) nproc (.intr (.scan 0)))) := by
    decide +kernel
  obtain ⟨m, hrun, hm⟩ := exec_reaches hexec
  simp only [Prod.mk.injEq] at hm
  obtain ⟨hpc, hlock, hproc, hcode, hexec₂⟩ := hm
  obtain ⟨m₂, hrun₂, hend⟩ := exec_reaches hexec₂
  have hup : Run step (StaysUp 0) m m₂ := hrun₂.mono fun _ _ => staysUp_of_goesOn
  have hin : InSleep m 0 (.addr 9) 7 := ⟨_, Or.inl ⟨0, hproc, hcode, rfl⟩, by decide⟩
  exact ⟨m, m₂, hrun, hpc, hin, hup, hend,
    (no_lost_wakeup hrun).wakes 1 _ 7 0 _ (by decide) hpc hlock hin m₂ _ hup hend⟩

end Result

end Sched
end Xv6
