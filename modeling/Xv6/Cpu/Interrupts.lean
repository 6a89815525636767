import Xv6.Cpu.Threads

/-!
# The interrupt state follows the kernel thread

`noff` and `intena` are fields of the CPU but describe the thread that it runs.  A
thread that is switched out keeps `intena` in a local variable of `sched`, and `noff`
is one on both sides of the switch, for the `p->lock` that is handed over.

Main results:

- Theorem {lit}`Wf.advance`: one step keeps the invariant.
- Theorem {lit}`interrupt_state_follows_thread`: no panic, interrupts off under locks,
  and the old state of the interrupts after the outermost release.
-/

namespace Xv6
namespace Threads

variable {C T L : Type}

/-! ## The stack of a thread -/

/-- The frames of an open `push_off` that no held lock and no caller accounts for. -/
def Frame.busy : Frame T L → Bool
  | .spinning _ | .popping => true
  | _ => false

/-- Nested handlers.  What a handler can interrupt with interrupts enabled is ordinary
code or a `push_off` that has found them enabled. -/
def Handlers : List (Frame T L) → Prop
  | [] => True
  | .trap :: .reading old _ :: rest => old = true ∧ Handlers rest
  | .trap :: rest => Handlers rest
  | _ => False

/-- What a stack of handlers can look like. -/
theorem Handlers.cases {fs : List (Frame T L)} (h : Handlers fs) :
    fs = [] ∨ (∃ lk rest, fs = .trap :: .reading true lk :: rest ∧ Handlers rest) ∨
      ∃ rest, fs = .trap :: rest ∧ Handlers rest := by
  unfold Handlers at h
  split at h
  · exact Or.inl rfl
  · obtain ⟨rfl, h⟩ := h
    exact Or.inr (Or.inl ⟨_, _, rfl, h⟩)
  · exact Or.inr (Or.inr ⟨_, rfl, h⟩)
  · exact h.elim

/-- A handler on top of handlers. -/
theorem Handlers.trap {fs : List (Frame T L)} (h : Handlers fs) : Handlers (.trap :: fs) := by
  obtain rfl | ⟨lk, rest, rfl, -⟩ | ⟨rest, rfl, -⟩ := h.cases
  · trivial
  all_goals exact h

/-- No handler has interrupted an open `push_off`. -/
theorem Handlers.countP_busy {fs : List (Frame T L)} (h : Handlers fs) :
    fs.countP Frame.busy = 0 := by
  fun_induction Handlers fs with
  | case1 => rfl
  | case2 old lk rest ih => simp [Frame.busy, ih h.2]
  | case3 rest _ ih => simp [Frame.busy, ih h]
  | case4 => exact h.elim

namespace Kthread

/-- The value of `intena` that belongs to the thread. -/
def saved (k : Kthread T L) (intena : Bool) : Bool :=
  match k.frames with
  | .switched i :: _ => i
  | _ => intena

/-- At most one function is open on top of the handlers.  It agrees with the CPU and
with the locks of the thread. -/
def Stack (u : Cpu) (k : Kthread T L) : Prop :=
  match k.frames with
  | .reading old lk :: rest => (u.intr = old ∧ ∀ l ∈ lk, l ∉ k.held) ∧ Handlers rest
  | .switched _ :: rest => 0 < k.depth ∧ Handlers rest
  | .spinning _ :: rest | .popping :: rest => Handlers rest
  | fs => Handlers fs

variable {u : Cpu} {k : Kthread T L}

/-- A thread that is in none of the functions has only handlers open. -/
theorem handlers_of_free (hstack : k.Stack u) (hfree : k.free = true) : Handlers k.frames := by
  unfold free at hfree
  unfold Stack at hstack
  split at hfree
  next hnil =>
    rw [hnil]
    trivial
  next htrap =>
    rw [htrap] at hstack ⊢
    exact hstack
  · cases hfree

/-- Handlers alone make a stack. -/
theorem stack_of_handlers (h : Handlers k.frames) : k.Stack u := by
  unfold Stack
  obtain hfs | ⟨lk, rest, hfs, -⟩ | ⟨rest, hfs, -⟩ := h.cases
  all_goals
    rw [hfs] at h ⊢
    exact h

/-- Under handlers alone the CPU has the thread's `intena`. -/
theorem saved_of_handlers (h : Handlers k.frames) (i : Bool) : k.saved i = i := by
  unfold saved
  obtain hfs | ⟨lk, rest, hfs, -⟩ | ⟨rest, hfs, -⟩ := h.cases <;> rw [hfs]

end Kthread

open Kthread

/-! ## One CPU and its thread -/

/-- A CPU and the thread that it runs. -/
structure On (u : Cpu) (k : Kthread T L) : Prop where
  noff_eq : u.noff = k.depth
  depth_eq : k.depth = k.held.length + k.pushes + k.frames.countP Frame.busy
  off : 0 < u.noff → u.intr = false
  stack : k.Stack u
  nodup : k.held.Nodup

/-- The open `push_off` calls of a process will restore the right state. -/
def Saved (u : Cpu) (k : Kthread T L) : Prop :=
  0 < u.noff → ∀ b ∈ k.before, k.saved u.intena = b

/-- The thread of a process that no CPU runs.  A new one has nothing to restore. -/
structure Parked (k : Kthread T L) : Prop where
  held : k.held = []
  pushes : k.pushes = 0
  depth : k.depth = 0
  frames : (k.frames = [] ∧ k.before = none) ∨
    ∃ i rest, k.frames = .switched i :: rest ∧ Handlers rest ∧ ∀ b ∈ k.before, i = b

/-- The scheduler of a CPU that runs a process. -/
structure Idle (k : Kthread T L) : Prop where
  held : k.held = []
  pushes : k.pushes = 0
  depth : k.depth = 0
  frames : k.frames = []

section Local

variable {u : Cpu} {k : Kthread T L} {rest : List (Frame T L)}

/-- A change of the stack that opens or closes no `push_off`. -/
theorem On.setFrames {u' : Cpu} {fs : List (Frame T L)} (h : On u k)
    (hbusy : fs.countP Frame.busy = k.frames.countP Frame.busy) (hnoff : u'.noff = u.noff)
    (hoff : 0 < u'.noff → u'.intr = false) (hstack : Stack u' { k with frames := fs }) :
    On u' { k with frames := fs } :=
  ⟨hnoff.trans h.noff_eq, h.depth_eq.trans (by rw [hbusy]), hoff, hstack, h.nodup⟩

/-- `intr_get` in `push_off` keeps the CPU and its thread in step. -/
theorem On.intrGet {lk : Option (Lock T L)} (h : On u k) (hfree : k.free = true)
    (hlk : ∀ l ∈ lk, l ∉ k.held) : On u { k with frames := .reading u.intr lk :: k.frames } :=
  h.setFrames (by simp [Frame.busy]) rfl h.off
    ⟨⟨rfl, hlk⟩, handlers_of_free h.stack hfree⟩

/-- `intr_get` changes nothing that is saved. -/
theorem Saved.intrGet (h : Saved u k) (hfree : k.free = true) (hon : On u k)
    (lk : Option (Lock T L)) : Saved u { k with frames := .reading u.intr lk :: k.frames } := by
  intro hpos b hb
  rw [← h hpos b hb]
  exact (saved_of_handlers (handlers_of_free hon.stack hfree) _).symm

/-- The facts that a call of `push_off` in progress has left. -/
theorem On.reading {old : Bool} {lk : Option (Lock T L)} (h : On u k)
    (hframes : k.frames = .reading old lk :: rest) :
    u.intr = old ∧ (∀ l ∈ lk, l ∉ k.held) ∧ Handlers rest ∧
      k.depth = k.held.length + k.pushes := by
  have hstack := h.stack
  have hdepth := h.depth_eq
  unfold Stack at hstack
  rw [hframes] at hstack hdepth
  obtain ⟨⟨hold, hlk⟩, hrest⟩ := hstack
  refine ⟨hold, hlk, hrest, ?_⟩
  simpa [Frame.busy, hrest.countP_busy] using hdepth

/-- The rest of `push_off`, outside `acquire`. -/
theorem On.pushOff {old : Bool} {lk : Option (Lock T L)} (h : On u k)
    (hframes : k.frames = .reading old lk :: rest) :
    On (u.pushOff old) { k.pushed u with frames := rest, pushes := k.pushes + 1 } := by
  obtain ⟨hold, hlk, hrest, hdepth⟩ := h.reading hframes
  constructor
  · simp [Cpu.pushOff, pushed, h.noff_eq]
  · simp only [pushed, hdepth, hrest.countP_busy]
    omega
  · exact fun _ => rfl
  · exact stack_of_handlers hrest
  · exact h.nodup

/-- The rest of `push_off` in `acquire`. -/
theorem On.pushOff_acquire {old : Bool} {l : Lock T L} (h : On u k)
    (hframes : k.frames = .reading old (some l) :: rest) :
    On (u.pushOff old) { k.pushed u with frames := .spinning l :: rest } := by
  obtain ⟨hold, hlk, hrest, hdepth⟩ := h.reading hframes
  constructor
  · simp [Cpu.pushOff, pushed, h.noff_eq]
  · simp only [pushed, hdepth, List.countP_cons, hrest.countP_busy, Frame.busy]
    rfl
  · exact fun _ => rfl
  · exact hrest
  · exact h.nodup

/-- The outermost `push_off` records the state of the interrupts in `intena`. -/
theorem Saved.pushOff {old : Bool} {lk : Option (Lock T L)} (h : Saved u k) (hon : On u k)
    (hframes : k.frames = .reading old lk :: rest) (b : Bool) (hb : b ∈ (k.pushed u).before) :
    (u.pushOff old).intena = b := by
  obtain ⟨hold, -⟩ := hon.reading hframes
  by_cases hzero : u.noff = 0
  · have hb' : u.intr = b := by simpa [pushed, hzero] using hb
    simp [Cpu.pushOff, hzero, ← hold, hb']
  · have hb' : b ∈ k.before := by simpa [pushed, hzero] using hb
    have hsaved := h (by omega) b hb'
    simp only [Kthread.saved, hframes] at hsaved
    simp [Cpu.pushOff, hzero, hsaved]

/-- The facts that an open `push_off` in `acquire` or `pop_off` in `release` has left. -/
theorem On.busy {f : Frame T L} (h : On u k) (hframes : k.frames = f :: rest)
    (hf : f.busy = true) : Handlers rest ∧ k.depth = k.held.length + k.pushes + 1 := by
  have hstack := h.stack
  have hdepth := h.depth_eq
  unfold Stack at hstack
  rw [hframes] at hstack hdepth
  have hrest : Handlers rest := by
    cases f with
    | spinning _ | popping => exact hstack
    | reading _ _ | switched _ | trap => cases hf
  refine ⟨hrest, ?_⟩
  simpa [List.countP_cons, hf, hrest.countP_busy] using hdepth

/-- The atomic swap that takes the lock. -/
theorem On.take {l : Lock T L} (h : On u k) (hframes : k.frames = .spinning l :: rest)
    (hl : l ∉ k.held) : On u { k with frames := rest, held := l :: k.held } := by
  obtain ⟨hrest, hdepth⟩ := h.busy hframes rfl
  constructor
  · exact h.noff_eq
  · simp only [hdepth, hrest.countP_busy, List.length_cons]
    omega
  · exact h.off
  · exact stack_of_handlers hrest
  · exact List.nodup_cons.mpr ⟨hl, h.nodup⟩

/-- Whether a frame is a thread's return from `swtch`. -/
def Frame.isSwitched : Frame T L → Bool
  | .switched _ => true
  | _ => false

/-- Only a thread that is switched out has an `intena` of its own. -/
theorem saved_cons {f : Frame T L} (hframes : k.frames = f :: rest)
    (hf : f.isSwitched = false) (i : Bool) : k.saved i = i := by
  unfold Kthread.saved
  rw [hframes]
  cases f with
  | switched j => cases hf
  | spinning _ | popping | reading _ _ | trap => rfl

/-- A step of the thread that neither switches nor touches `intena`. -/
theorem Saved.congr {u' : Cpu} {k' : Kthread T L} (h : Saved u k)
    (hk : k.saved u.intena = u.intena) (hk' : k'.saved u'.intena = u'.intena)
    (hintena : u'.intena = u.intena) (hbefore : k'.before = k.before)
    (hnoff : 0 < u'.noff → 0 < u.noff) : Saved u' k' := by
  intro hpos b hb
  rw [hbefore] at hb
  rw [hk', hintena, ← hk]
  exact h (hnoff hpos) b hb

/-- The call of `pop_off` takes over the count of a lock or of a `push_off`. -/
theorem On.popping {held : List (Lock T L)} {pushes : Nat} (h : On u k) (hfree : k.free = true)
    (hcount : held.length + pushes + 1 = k.held.length + k.pushes) (hnodup : held.Nodup) :
    On u { k with frames := .popping :: k.frames, held := held, pushes := pushes } := by
  have hrest := handlers_of_free h.stack hfree
  have hdepth := h.depth_eq
  rw [hrest.countP_busy] at hdepth
  refine ⟨h.noff_eq, ?_, h.off, hrest, hnodup⟩
  simp only [hdepth, List.countP_cons, hrest.countP_busy, Frame.busy, if_true]
  omega

/-- `release` up to its call of `pop_off`. -/
theorem On.release [DecidableEq T] [DecidableEq L] {l : Lock T L} (h : On u k)
    (hfree : k.free = true) (hl : l ∈ k.held) :
    On u { k with frames := .popping :: k.frames, held := k.held.erase l } := by
  refine h.popping hfree ?_ (h.nodup.erase l)
  have hlen := List.length_erase_of_mem hl
  have hpos := List.length_pos_of_mem hl
  omega

/-- A call of `pop_off` outside `release`. -/
theorem On.callPopOff (h : On u k) (hfree : k.free = true) (hpushes : 0 < k.pushes) :
    On u { k with frames := .popping :: k.frames, pushes := k.pushes - 1 } :=
  h.popping hfree (by omega) h.nodup

/-- `pop_off` finds interrupts off and a `push_off` to match. -/
theorem On.popOff_eq (h : On u k) (hframes : k.frames = .popping :: rest) :
    u.popOff = .ok { u with noff := u.noff - 1, intr := decide (u.noff = 1) && u.intena } := by
  obtain ⟨hrest, hdepth⟩ := h.busy hframes rfl
  have hpos : 0 < u.noff := by
    rw [h.noff_eq]
    omega
  exact Cpu.popOff_eq hpos (h.off hpos)

/-- `pop_off`, which may enable interrupts. -/
theorem On.popOff (h : On u k) (hframes : k.frames = .popping :: rest) :
    On { u with noff := u.noff - 1, intr := decide (u.noff = 1) && u.intena }
      { k with frames := rest, depth := k.depth - 1 } := by
  obtain ⟨hrest, hdepth⟩ := h.busy hframes rfl
  constructor
  · simp only [h.noff_eq]
  · simp only [hdepth, hrest.countP_busy]
    omega
  · intro hpos
    simp only at hpos
    have hne : u.noff ≠ 1 := by omega
    simp [hne]
  · exact stack_of_handlers hrest
  · exact h.nodup

/-- Interrupts can be switched by hand where no `push_off` is open. -/
theorem On.setIntr (h : On u k) (hfree : k.free = true) (hdepth : k.depth = 0) (b : Bool) :
    On { u with intr := b } k where
  noff_eq := h.noff_eq
  depth_eq := h.depth_eq
  off := by
    intro hpos
    simp only [h.noff_eq, hdepth] at hpos
    omega
  stack := stack_of_handlers (handlers_of_free h.stack hfree)
  nodup := h.nodup

/-- An interrupt arrives in ordinary code, or in a `push_off` that has found interrupts
enabled. -/
theorem On.trap (h : On u k) (hintr : u.intr = true) :
    On { u with intr := false } { k with frames := .trap :: k.frames } := by
  have hnoff : u.noff = 0 := by
    by_contra hne
    rw [h.off (by omega)] at hintr
    cases hintr
  have hdepth := h.noff_eq.symm.trans hnoff
  have hcount : (k.frames.countP Frame.busy) = 0 := by
    have := h.depth_eq
    omega
  have hstack := h.stack
  have hframes : Handlers (.trap :: k.frames) := by
    unfold Stack at hstack
    split at hstack
    next old lk rest heq =>
      rw [heq]
      obtain ⟨⟨hold, -⟩, hrest⟩ := hstack
      rw [← hold, hintr]
      exact ⟨rfl, hrest⟩
    · omega
    iterate 2
      next heq => simp [heq, List.countP_cons, Frame.busy] at hcount
    · exact hstack.trap
  exact h.setFrames (by simp [Frame.busy]) rfl (fun _ => rfl) hframes

/-- The end of a handler. -/
theorem On.sret (h : On u k) (hframes : k.frames = .trap :: rest) (hdepth : k.depth = 0) :
    On { u with intr := true } { k with frames := rest } := by
  have hstack : Handlers (.trap :: rest) := by
    have := h.stack
    unfold Stack at this
    rw [hframes] at this
    exact this
  have hsum := h.depth_eq
  have hheld : k.held = [] := List.eq_nil_of_length_eq_zero (by omega)
  refine h.setFrames (by simp [hframes, Frame.busy]) rfl ?_ ?_
  · intro hpos
    simp only [h.noff_eq, hdepth] at hpos
    omega
  · obtain hnil | ⟨lk, rest', hrest', hhandlers⟩ | ⟨rest', hrest', hhandlers⟩ := hstack.cases
    · cases hnil
    · cases hrest'
      refine ⟨⟨rfl, ?_⟩, hhandlers⟩
      intro l _ hl
      simp only [hheld] at hl
      cases hl
    · cases hrest'
      exact stack_of_handlers hhandlers

/-- The facts that a switch has left. -/
theorem On.switched {i : Bool} (h : On u k) (hframes : k.frames = .switched i :: rest) :
    0 < k.depth ∧ Handlers rest := by
  have hstack := h.stack
  unfold Stack at hstack
  rw [hframes] at hstack
  exact hstack

/-- The return from `sched` restores `intena`. -/
theorem On.resume {i : Bool} (h : On u k) (hframes : k.frames = .switched i :: rest) :
    On { u with intena := i } { k with frames := rest } := by
  obtain ⟨-, hrest⟩ := h.switched hframes
  exact h.setFrames (by simp [hframes, Frame.busy]) rfl h.off
    (stack_of_handlers hrest)

/-- The return from `sched` restores what was saved. -/
theorem Saved.resume {i : Bool} (h : Saved u k) (hon : On u k)
    (hframes : k.frames = .switched i :: rest) :
    Saved { u with intena := i } { k with frames := rest } := by
  obtain ⟨-, hrest⟩ := hon.switched hframes
  intro hpos b hb
  have hsaved := h hpos b hb
  simp only [Kthread.saved, hframes] at hsaved
  rw [saved_of_handlers hrest]
  exact hsaved

end Local

/-! ## All CPUs -/

/-- The invariant of the machine, except for the locks. -/
structure Core (s : State C T L) : Prop where
  panic : s.panic = none
  inj : ∀ c c', s.cur c = s.cur c' → c = c'
  own : ∀ c c', s.cur c = .sched c' → c' = c
  on : ∀ c, On (s.cpu c) (s.on c)
  saved : ∀ c t, s.cur c = .proc t → Saved (s.cpu c) (s.on c)
  running : ∀ t, s.state t = .running ↔ ∃ c, s.cur c = .proc t
  parked : ∀ t, (∀ c, s.cur c ≠ .proc t) → Parked (s.thread (.proc t))
  idle : ∀ c, s.cur c ≠ .sched c → Idle (s.thread (.sched c))

/-- The locks that name a CPU are those of its thread. -/
def Locks (s : State C T L) : Prop :=
  ∀ c lk, lk ∈ (s.on c).held ↔ s.lock lk = some c

/-- The invariant of the machine. -/
structure Wf (s : State C T L) : Prop extends Core s where
  locks : Locks s

/-- The invariant holds at boot. -/
theorem wf_boot (intena intr : C → Bool) : Wf (boot intena intr : State C T L) where
  panic := rfl
  inj := by
    intro c c' h
    cases h
    rfl
  own := by
    intro c c' h
    cases h
    rfl
  on c := ⟨rfl, rfl, fun h => absurd h (Nat.lt_irrefl 0), trivial, List.nodup_nil⟩
  saved := by
    intro c t h
    cases h
  locks c lk := by simp [boot, State.on, forkret]
  running t := by simp [boot]
  parked t _ := ⟨rfl, rfl, rfl, Or.inl ⟨rfl, rfl⟩⟩
  idle c h := absurd rfl h

/-- A process that does not run is on no CPU. -/
theorem Core.cur_ne {s : State C T L} {t : T} (h : Core s) (hstate : s.state t ≠ .running)
    (c : C) : s.cur c ≠ .proc t :=
  fun hc => hstate ((h.running t).mpr ⟨c, hc⟩)

section Put

variable [DecidableEq C] [DecidableEq T]
variable {s : State C T L} {c : C} {u : Cpu} {k : Kthread T L}

/-- The thread that a step has changed. -/
@[simp]
theorem on_put : (s.put c u k).on c = k :=
  Function.update_self _ _ _

/-- The CPU that a step has changed. -/
@[simp]
theorem cpu_put : (s.put c u k).cpu c = u :=
  Function.update_self _ _ _

/-- The threads of the other CPUs. -/
theorem on_put_of_ne (h : Core s) {c' : C} (hne : c' ≠ c) : (s.put c u k).on c' = s.on c' :=
  Function.update_of_ne (fun heq => hne (h.inj _ _ heq)) _ _

/-- The other CPUs. -/
theorem cpu_put_of_ne {c' : C} (hne : c' ≠ c) : (s.put c u k).cpu c' = s.cpu c' :=
  Function.update_of_ne hne _ _

/-- A step of one thread that does not switch. -/
theorem Core.put (h : Core s) (hon : On u k) (hsaved : ∀ t, s.cur c = .proc t → Saved u k) :
    Core (s.put c u k) where
  panic := h.panic
  inj := h.inj
  own := h.own
  on c' := by
    obtain rfl | hne := eq_or_ne c' c
    · rw [on_put, cpu_put]
      exact hon
    · rw [on_put_of_ne h hne, cpu_put_of_ne hne]
      exact h.on c'
  saved c' t hcur := by
    obtain rfl | hne := eq_or_ne c' c
    · rw [on_put, cpu_put]
      exact hsaved t hcur
    · rw [on_put_of_ne h hne, cpu_put_of_ne hne]
      exact h.saved c' t hcur
  running := h.running
  parked t ht := by
    have hthread : (s.put c u k).thread (.proc t) = s.thread (.proc t) :=
      Function.update_of_ne (ht c).symm _ _
    rw [hthread]
    exact h.parked t ht
  idle c' hc' := by
    have hne : Thread.sched c' ≠ s.cur c := by
      intro heq
      obtain rfl := h.own _ _ heq.symm
      exact hc' heq.symm
    have hthread : (s.put c u k).thread (.sched c') = s.thread (.sched c') :=
      Function.update_of_ne hne _ _
    rw [hthread]
    exact h.idle c' hc'

/-- A step of one thread that leaves the locks alone. -/
theorem Wf.put (h : Wf s) (hon : On u k) (hsaved : ∀ t, s.cur c = .proc t → Saved u k)
    (hheld : k.held = (s.on c).held) : Wf (s.put c u k) where
  toCore := h.toCore.put hon hsaved
  locks c' lk := by
    obtain rfl | hne := eq_or_ne c' c
    · rw [on_put, hheld]
      exact h.locks c' lk
    · rw [on_put_of_ne h.toCore hne]
      exact h.locks c' lk

/-- Taking a lock that is free, or giving one up. -/
theorem Wf.put_setLock [DecidableEq L] (h : Wf s) {lk : Lock T L} {o : Option C} (hon : On u k)
    (hsaved : ∀ t, s.cur c = .proc t → Saved u k)
    (hheld : ∀ l, l ∈ k.held ↔ Function.update s.lock lk o l = some c)
    (hother : ∀ c' ≠ c, s.lock lk ≠ some c' ∧ o ≠ some c') : Wf ((s.put c u k).setLock lk o) where
  toCore := by
    have hput := h.toCore.put hon hsaved
    exact { hput with }
  locks c' l := by
    change l ∈ ((s.put c u k).on c').held ↔ Function.update s.lock lk o l = some c'
    obtain rfl | hne := eq_or_ne c' c
    · rw [on_put]
      exact hheld l
    · rw [on_put_of_ne h.toCore hne, h.locks c' l, Function.update_apply]
      split
      next heq => simp [heq, hother c' hne]
      · rfl

end Put

section Switch

variable [DecidableEq C] [DecidableEq T]
variable {s : State C T L} {c : C} {t : T} {next : Thread C T} {st : Procstate}

/-- What a thread is left with when it gives `p->lock` away. -/
def Kthread.left (k : Kthread T L) : Kthread T L :=
  { k with held := [], depth := k.depth - 1 }

/-- A thread that has been given the lock of process `t`. -/
def Kthread.given (k : Kthread T L) (t : T) : Kthread T L :=
  { k with held := [.proc t], depth := k.depth + 1 }

/-- The thread that a switch goes to. -/
theorem thread_swtch_next (hne : next ≠ s.cur c) :
    (s.swtch c t next st).thread next = (s.thread next).given t := by
  simp [State.swtch, Kthread.given, Function.update_of_ne hne]

/-- The thread that a switch leaves. -/
theorem thread_swtch_prev (hne : next ≠ s.cur c) :
    (s.swtch c t next st).thread (s.cur c) = (s.on c).left := by
  simp [State.swtch, Kthread.left, State.on, Function.update_of_ne hne.symm]

/-- The other threads. -/
theorem thread_swtch_other {th : Thread C T} (hnext : th ≠ next) (hprev : th ≠ s.cur c) :
    (s.swtch c t next st).thread th = s.thread th := by
  simp [State.swtch, Function.update_of_ne hnext, Function.update_of_ne hprev]

/-- What the CPU runs after a switch. -/
theorem cur_swtch : (s.swtch c t next st).cur c = next :=
  Function.update_self _ _ _

/-- What the other CPUs run. -/
theorem cur_swtch_of_ne {c' : C} (hne : c' ≠ c) : (s.swtch c t next st).cur c' = s.cur c' :=
  Function.update_of_ne hne _ _

/-- The thread of the CPU after a switch. -/
theorem on_swtch (hne : next ≠ s.cur c) :
    (s.swtch c t next st).on c = (s.thread next).given t := by
  unfold State.on
  rw [cur_swtch, thread_swtch_next hne]

/-- The threads of the other CPUs after a switch. -/
theorem on_swtch_of_ne (h : Core s) (hnext : ∀ c', s.cur c' ≠ next) {c' : C} (hne : c' ≠ c) :
    (s.swtch c t next st).on c' = s.on c' := by
  unfold State.on
  rw [cur_swtch_of_ne hne,
    thread_swtch_other (hnext c') (fun heq => hne (h.inj _ _ heq))]

/-- The current threads after a switch. -/
theorem exists_cur_swtch_iff {th : Thread C T} :
    (∃ c', (s.swtch c t next st).cur c' = th) ↔ next = th ∨ ∃ c', c' ≠ c ∧ s.cur c' = th := by
  constructor
  · rintro ⟨c', hc'⟩
    obtain rfl | hne := eq_or_ne c' c
    · rw [cur_swtch] at hc'
      exact Or.inl hc'
    · rw [cur_swtch_of_ne hne] at hc'
      exact Or.inr ⟨c', hne, hc'⟩
  · rintro (rfl | ⟨c', hne, hc'⟩)
    · exact ⟨c, cur_swtch⟩
    · exact ⟨c', (cur_swtch_of_ne hne).trans hc'⟩

/-- A switch between two threads, both with `p->lock` as their only lock. -/
theorem Wf.swtch (h : Wf s) (hnext : ∀ c', s.cur c' ≠ next)
    (hown : ∀ c', next = .sched c' → c' = c) (hheld : (s.on c).held = [.proc t])
    (hon : On (s.cpu c) ((s.thread next).given t))
    (hsaved : ∀ t', next = .proc t' → Saved (s.cpu c) ((s.thread next).given t))
    (hparked : ∀ t', s.cur c = .proc t' → Parked (s.on c).left)
    (hidle : s.cur c = .sched c → Idle (s.on c).left)
    (hst : st = .running ↔ next = .proc t)
    (hself : ∀ t', s.cur c = .proc t' ∨ next = .proc t' → t' = t)
    (hother : ∀ c' ≠ c, s.cur c' ≠ .proc t) : Wf (s.swtch c t next st) where
  panic := h.panic
  inj c₁ c₂ heq := by
    obtain rfl | h₁ := eq_or_ne c₁ c <;> obtain rfl | h₂ := eq_or_ne c₂ c₁
    · rfl
    · rw [cur_swtch, cur_swtch_of_ne h₂] at heq
      exact absurd heq.symm (hnext c₂)
    · rfl
    · rw [cur_swtch_of_ne h₁] at heq
      obtain rfl | hc₂ := eq_or_ne c₂ c
      · rw [cur_swtch] at heq
        exact absurd heq (hnext c₁)
      · rw [cur_swtch_of_ne hc₂] at heq
        exact h.inj _ _ heq
  own c₁ c₂ heq := by
    obtain rfl | h₁ := eq_or_ne c₁ c
    · rw [cur_swtch] at heq
      exact hown c₂ heq
    · rw [cur_swtch_of_ne h₁] at heq
      exact h.own _ _ heq
  on c' := by
    obtain rfl | hne := eq_or_ne c' c
    · rw [on_swtch (hnext c').symm]
      exact hon
    · rw [on_swtch_of_ne h.toCore hnext hne]
      exact h.on c'
  saved c' t' hcur := by
    obtain rfl | hne := eq_or_ne c' c
    · rw [on_swtch (hnext c').symm]
      rw [cur_swtch] at hcur
      exact hsaved t' hcur
    · rw [on_swtch_of_ne h.toCore hnext hne]
      rw [cur_swtch_of_ne hne] at hcur
      exact h.saved c' t' hcur
  running t' := by
    rw [exists_cur_swtch_iff]
    change Function.update s.state t st t' = .running ↔ _
    rw [Function.update_apply]
    obtain rfl | hne := eq_or_ne t' t
    · rw [if_pos rfl, hst]
      exact ⟨Or.inl, Or.rec id fun ⟨c', hc', h⟩ => absurd h (hother c' hc')⟩
    · rw [if_neg hne, h.running t']
      constructor
      · rintro ⟨c', hc'⟩
        refine Or.inr ⟨c', ?_, hc'⟩
        rintro rfl
        exact hne (hself t' (Or.inl hc'))
      · rintro (hn | ⟨c', -, hc'⟩)
        · exact absurd (hself t' (Or.inr hn)) hne
        · exact ⟨c', hc'⟩
  parked t' ht' := by
    have hn : Thread.proc t' ≠ next := fun heq => ht' c (cur_swtch.trans heq.symm)
    obtain heq | hprev := eq_or_ne (.proc t') (s.cur c)
    · rw [heq, thread_swtch_prev (hnext c).symm]
      exact hparked t' heq.symm
    · rw [thread_swtch_other hn hprev]
      apply h.parked t'
      intro c' hc'
      obtain rfl | hne := eq_or_ne c' c
      · exact hprev hc'.symm
      · exact ht' c' ((cur_swtch_of_ne hne).trans hc')
  idle c' hc' := by
    have hn : Thread.sched c' ≠ next := by
      intro heq
      obtain rfl := hown c' heq.symm
      exact hc' (cur_swtch.trans heq.symm)
    obtain heq | hprev := eq_or_ne (.sched c') (s.cur c)
    · obtain rfl := h.own _ _ heq.symm
      rw [heq, thread_swtch_prev (hnext c').symm]
      exact hidle heq.symm
    · rw [thread_swtch_other hn hprev]
      apply h.idle c'
      intro heq
      obtain rfl | hne := eq_or_ne c' c
      · exact hprev heq.symm
      · exact hc' ((cur_swtch_of_ne hne).trans heq)
  locks c' lk := by
    have hold := h.locks c' lk
    obtain rfl | hne := eq_or_ne c' c
    · rw [on_swtch (hnext c').symm]
      rw [hheld] at hold
      exact hold
    · rw [on_swtch_of_ne h.toCore hnext hne]
      exact hold

/-- The switch from a process to the scheduler. -/
theorem Wf.sched (h : Wf s) (hcur : s.cur c = .proc t) (hfree : (s.on c).free = true)
    (hheld : (s.on c).held = [.proc t]) (hpushes : (s.on c).pushes = 0) (hst : st ≠ .running) :
    Wf (schedStep s c t st) := by
  have hon := h.on c
  have hrest := handlers_of_free hon.stack hfree
  have hdepth : (s.on c).depth = 1 := by
    rw [hon.depth_eq, hheld, hpushes, hrest.countP_busy]
    rfl
  have hnoff : (s.cpu c).noff = 1 := hon.noff_eq.trans hdepth
  have hlock : s.lock (.proc t) = some c := by
    rw [← h.locks c, hheld]
    exact List.mem_singleton_self _
  have hpanic : (s.cpu c).schedPanic (s.lock (.proc t) = some c) (st = .running) = none := by
    rw [Cpu.schedPanic_eq_none_iff]
    exact ⟨decide_eq_true hlock, hnoff, decide_eq_false hst, hon.off (by omega)⟩
  unfold schedStep
  simp only [hpanic]
  -- The thread at `swtch` in `sched`, before it is left.
  have hput : Wf (s.put c (s.cpu c)
      { s.on c with frames := .switched (s.cpu c).intena :: (s.on c).frames }) := by
    apply h.put
    · refine hon.setFrames (by simp [Frame.busy]) rfl hon.off ⟨?_, hrest⟩
      change 0 < (s.on c).depth
      omega
    · intro t' ht' hpos b hb
      rw [← h.saved c t' ht' hpos b hb, saved_of_handlers hrest]
      rfl
    · rfl
  have hidle := h.idle c (by rw [hcur]; exact nofun)
  have hne : Thread.sched c ≠ s.cur c := by
    rw [hcur]
    exact nofun
  have hthread : ∀ k, (s.put c (s.cpu c) k).thread (.sched c) = s.thread (.sched c) :=
    fun k => Function.update_of_ne hne _ _
  apply hput.swtch
  · intro c' hc'
    obtain rfl := h.own _ _ hc'
    exact hne hc'.symm
  · intro c' hc'
    cases hc'
    rfl
  · rw [on_put]
    exact hheld
  · rw [hthread, cpu_put]
    constructor
    · simp [Kthread.given, hnoff, hidle.depth]
    · simp [Kthread.given, hidle.depth, hidle.pushes, hidle.frames]
    · exact hon.off
    · exact stack_of_handlers (by rw [Kthread.given, hidle.frames]; trivial)
    · exact List.pairwise_singleton _ _
  · intro t' ht'
    cases ht'
  · intro t' _
    rw [on_put]
    refine ⟨rfl, hpushes, ?_, Or.inr ⟨_, _, rfl, hrest, ?_⟩⟩
    · change (s.on c).depth - 1 = 0
      omega
    · intro b hb
      rw [← h.saved c t hcur (by omega) b hb, saved_of_handlers hrest]
  · intro hsched
    rw [show (s.put c (s.cpu c) _).cur c = s.cur c from rfl, hcur] at hsched
    cases hsched
  · simp [hst]
  · rintro t' (ht' | ht')
    · cases hcur.symm.trans ht'
      rfl
    · cases ht'
  · exact fun c' hne' hc' => hne' (h.inj _ _ (hc'.trans hcur.symm))

/-- The switch from the scheduler to a process. -/
theorem Wf.run (h : Wf s) {c₀ : C} (hcur : s.cur c = .sched c₀)
    (hframes : (s.on c).frames = []) (hheld : (s.on c).held = [.proc t])
    (hpushes : (s.on c).pushes = 0) (hstate : s.state t = .runnable) :
    Wf (s.swtch c t (.proc t) .running) := by
  have hon := h.on c
  have hdepth : (s.on c).depth = 1 := by
    rw [hon.depth_eq, hheld, hpushes, hframes]
    rfl
  have hnoff : (s.cpu c).noff = 1 := hon.noff_eq.trans hdepth
  have hnot := h.cur_ne (t := t) (by simp [hstate])
  have hpark := h.parked t hnot
  apply h.swtch hnot
  · exact nofun
  · exact hheld
  · constructor
    · simp [Kthread.given, hnoff, hpark.depth]
    · obtain ⟨hnil, -⟩ | ⟨i, rest, hsw, hrest, -⟩ := hpark.frames
      · simp [Kthread.given, hpark.depth, hpark.pushes, hnil]
      · simp [Kthread.given, hpark.depth, hpark.pushes, hsw, Frame.busy,
          hrest.countP_busy]
    · exact hon.off
    · obtain ⟨hnil, -⟩ | ⟨i, rest, hsw, hrest, -⟩ := hpark.frames
      · exact stack_of_handlers (by rw [Kthread.given, hnil]; trivial)
      · unfold Kthread.Stack Kthread.given
        simp only [hsw]
        exact ⟨Nat.succ_pos _, hrest⟩
    · exact List.pairwise_singleton _ _
  · intro t' _ hpos b hb
    have hb' : b ∈ (s.thread (.proc t)).before := hb
    obtain ⟨-, hnone⟩ | ⟨i, rest, hsw, -, hsaved⟩ := hpark.frames
    · rw [hnone] at hb'
      cases hb'
    · unfold Kthread.saved Kthread.given
      simp only [hsw]
      exact hsaved b hb'
  · intro t' ht'
    rw [hcur] at ht'
    cases ht'
  · intro _
    refine ⟨rfl, hpushes, ?_, hframes⟩
    change (s.on c).depth - 1 = 0
    omega
  · simp
  · rintro t' (ht' | ht')
    · cases hcur.symm.trans ht'
    · cases ht'
      rfl
  · exact fun c' _ => hnot c'

end Switch

/-! ## Every step -/

section Steps

variable [DecidableEq C] [DecidableEq T] {s s' : State C T L} {c : C} {t : T}

/-- `push_off` keeps the invariant. -/
theorem Wf.pushOff (h : Wf s) {old : Bool} {lk : Option (Lock T L)} {rest : List (Frame T L)}
    (hframes : (s.on c).frames = .reading old lk :: rest) :
    Wf (pushOffStep s c old lk rest) := by
  obtain ⟨-, hlk, hrest, -⟩ := (h.on c).reading hframes
  unfold pushOffStep
  cases lk with
  | none =>
    apply h.put ((h.on c).pushOff hframes) _ rfl
    intro t ht _ b hb
    rw [saved_of_handlers hrest]
    exact (h.saved c t ht).pushOff (h.on c) hframes b hb
  | some l =>
    -- A lock that names this CPU is held by its thread, which has promised not to.
    have hlock : s.lock l ≠ some c := fun heq => hlk l rfl ((h.locks c l).mpr heq)
    simp only [if_neg hlock]
    apply h.put ((h.on c).pushOff_acquire hframes) _ rfl
    intro t ht _ b hb
    exact (h.saved c t ht).pushOff (h.on c) hframes b hb

/-- `pop_off` keeps the invariant. -/
theorem Wf.popOff (h : Wf s) {rest : List (Frame T L)}
    (hframes : (s.on c).frames = .popping :: rest) : Wf (popOffStep s c rest) := by
  have hrest := ((h.on c).busy hframes rfl).1
  unfold popOffStep
  simp only [(h.on c).popOff_eq hframes]
  apply h.put ((h.on c).popOff hframes) _ rfl
  intro t ht
  refine (h.saved c t ht).congr (saved_cons hframes rfl _) (saved_of_handlers hrest _) rfl rfl ?_
  intro hpos
  exact Nat.lt_of_lt_of_le hpos (Nat.sub_le _ _)

/-- A change of the interrupts where no `push_off` is open. -/
theorem Wf.setIntr (h : Wf s) (hfree : (s.on c).free = true) (hdepth : (s.on c).depth = 0)
    (b : Bool) : Wf (s.put c { s.cpu c with intr := b } (s.on c)) := by
  apply h.put ((h.on c).setIntr hfree hdepth b) _ rfl
  intro t ht
  exact (h.saved c t ht)

/-- `allocproc` keeps the invariant. -/
theorem Wf.allocproc (h : Wf s) (hstate : s.state t = .waiting) :
    Wf { s with thread := Function.update s.thread (.proc t) forkret } := by
  have hnot := h.cur_ne (t := t) (by simp [hstate])
  have hon : ∀ c, { s with thread := Function.update s.thread (.proc t) forkret : State C T L }.on c
      = s.on c := fun c => Function.update_of_ne (hnot c) _ _
  refine ⟨⟨h.panic, h.inj, h.own, ?_, ?_, h.running, ?_, ?_⟩, ?_⟩
  · intro c
    rw [hon c]
    exact h.on c
  · intro c t' ht'
    rw [hon c]
    exact h.saved c t' ht'
  · intro t' ht'
    change Parked (Function.update s.thread (.proc t) forkret (.proc t'))
    obtain rfl | hne := eq_or_ne t' t
    · rw [Function.update_self]
      exact ⟨rfl, rfl, rfl, Or.inl ⟨rfl, rfl⟩⟩
    · rw [Function.update_of_ne (by simpa using hne)]
      exact h.parked t' ht'
  · intro c hc
    change Idle (Function.update s.thread (.proc t) forkret (.sched c))
    rw [Function.update_of_ne (by exact nofun)]
    exact h.idle c hc
  · intro c lk
    rw [hon c]
    exact h.locks c lk

omit [DecidableEq C] in
/-- A process that is made runnable keeps the invariant. -/
theorem Wf.ready (h : Wf s) (hstate : s.state t = .waiting) :
    Wf { s with state := Function.update s.state t .runnable } := by
  refine ⟨⟨h.panic, h.inj, h.own, h.on, h.saved, ?_, h.parked, h.idle⟩, h.locks⟩
  intro t'
  change Function.update s.state t .runnable t' = .running ↔ _
  rw [← h.running t', Function.update_apply]
  split
  · simp [*]
  · rfl

variable [DecidableEq L]

/-- `release` keeps the invariant. -/
theorem Wf.release (h : Wf s) {lk : Lock T L} (hfree : (s.on c).free = true)
    (hlk : lk ∈ (s.on c).held) : Wf (releaseStep s c lk) := by
  have hlock := (h.locks c lk).mp hlk
  have hrest := handlers_of_free (h.on c).stack hfree
  unfold releaseStep
  simp only [if_pos hlock]
  refine h.put_setLock ((h.on c).release hfree hlk) (fun t ht => ?_) (fun l => ?_) fun c' hne => ?_
  · exact (h.saved c t ht).congr (saved_of_handlers hrest _) rfl rfl rfl id
  · rw [(h.on c).nodup.mem_erase_iff, h.locks c l, Function.update_apply]
    split <;> simp [*]
  · simp [hlock, hne.symm]

/-- The step lemma. -/
theorem Wf.advance (h : Wf s) {a : Act C T L} (hrule : Balanced s a)
    (hstep : advance s a = some s') : Wf s' := by
  cases a with
  | intrGet c lk =>
    obtain ⟨hfree, ⟨⟩⟩ := Option.ite_none_right_eq_some.mp hstep
    apply h.put ((h.on c).intrGet hfree hrule) _ rfl
    intro t ht
    exact (h.saved c t ht).intrGet hfree (h.on c) lk
  | pushOff c =>
    simp only [Threads.advance] at hstep
    split at hstep
    next old lk rest hframes =>
      cases hstep
      exact h.pushOff hframes
    · cases hstep
  | take c =>
    simp only [Threads.advance] at hstep
    split at hstep
    next lk rest hframes =>
      obtain ⟨hlock, ⟨⟩⟩ := Option.ite_none_right_eq_some.mp hstep
      have hlk : lk ∉ (s.on c).held := by
        rw [h.locks c lk, hlock]
        exact nofun
      have hrest := ((h.on c).busy hframes rfl).1
      refine h.put_setLock ((h.on c).take hframes hlk) (fun t ht => ?_) (fun l => ?_)
        fun c' hne => ?_
      · exact (h.saved c t ht).congr (saved_cons hframes rfl _) (saved_of_handlers hrest _) rfl
          rfl id
      · rw [List.mem_cons, h.locks c l, Function.update_apply]
        split <;> simp [*]
      · simp [hlock, hne.symm]
    · cases hstep
  | release c lk =>
    obtain ⟨hfree, ⟨⟩⟩ := Option.ite_none_right_eq_some.mp hstep
    exact h.release hfree hrule
  | callPopOff c =>
    obtain ⟨hfree, ⟨⟩⟩ := Option.ite_none_right_eq_some.mp hstep
    have hrest := handlers_of_free (h.on c).stack hfree
    apply h.put ((h.on c).callPopOff hfree hrule) _ rfl
    intro t ht
    exact (h.saved c t ht).congr (saved_of_handlers hrest _) rfl rfl rfl id
  | popOff c =>
    simp only [Threads.advance] at hstep
    split at hstep
    next rest hframes =>
      cases hstep
      exact h.popOff hframes
    · cases hstep
  | intrOn c =>
    obtain ⟨hfree, ⟨⟩⟩ := Option.ite_none_right_eq_some.mp hstep
    exact h.setIntr hfree hrule true
  | intrOff c =>
    obtain ⟨hfree, ⟨⟩⟩ := Option.ite_none_right_eq_some.mp hstep
    exact h.setIntr hfree hrule false
  | trap c =>
    obtain ⟨hintr, ⟨⟩⟩ := Option.ite_none_right_eq_some.mp hstep
    apply h.put ((h.on c).trap hintr) _ rfl
    intro t ht hpos
    have hoff := (h.on c).off hpos
    rw [hintr] at hoff
    cases hoff
  | sret c =>
    simp only [Threads.advance] at hstep
    split at hstep
    next rest hframes =>
      cases hstep
      apply h.put ((h.on c).sret hframes hrule) _ rfl
      intro t ht hpos
      have hnoff := (h.on c).noff_eq
      have hdepth : (s.on c).depth = 0 := hrule
      simp only [hnoff, hdepth] at hpos
      omega
    · cases hstep
  | sched c st =>
    simp only [Threads.advance] at hstep
    split at hstep
    next t hcur =>
      obtain ⟨hfree, ⟨⟩⟩ := Option.ite_none_right_eq_some.mp hstep
      simp only [Balanced, hcur] at hrule
      exact h.sched hcur hfree hrule.1 hrule.2.1 hrule.2.2
    · cases hstep
  | resume c =>
    simp only [Threads.advance] at hstep
    split at hstep
    next i rest hframes =>
      cases hstep
      apply h.put ((h.on c).resume hframes) _ rfl
      intro t ht
      exact (h.saved c t ht).resume (h.on c) hframes
    · cases hstep
  | run c t =>
    simp only [Threads.advance] at hstep
    split at hstep
    · cases hstep
    next c₀ hcur =>
      obtain ⟨⟨hframes, hheld, hpushes, hstate⟩, ⟨⟩⟩ := Option.ite_none_right_eq_some.mp hstep
      exact h.run hcur (List.isEmpty_iff.mp hframes) hheld hpushes hstate
  | ready c t =>
    obtain ⟨⟨-, hstate⟩, ⟨⟩⟩ := Option.ite_none_right_eq_some.mp hstep
    exact h.ready hstate
  | allocproc c t =>
    obtain ⟨⟨-, hstate⟩, ⟨⟩⟩ := Option.ite_none_right_eq_some.mp hstep
    exact h.allocproc hstate

/-- The invariant holds along every balanced run. -/
theorem Wf.of_run {intena intr : C → Bool}
    (hrun : Lib.Run step Balanced (boot intena intr) s) : Wf s :=
  hrun.invariant (wf_boot intena intr) fun t a t' ht hrule hstep => by
    obtain ⟨-, hadvance⟩ := Option.ite_none_right_eq_some.mp hstep
    exact ht.advance hrule hadvance

/-- What the `pop_off` of the outermost release leaves. -/
theorem Wf.intr_of_popOff (h : Wf s) (hcur : s.cur c = .proc t)
    (hstep : step s (.popOff c) = some s') (hzero : (s'.cpu c).noff = 0) (b : Bool)
    (hb : b ∈ (s.thread (.proc t)).before) : (s'.cpu c).intr = b := by
  obtain ⟨-, hadvance⟩ := Option.ite_none_right_eq_some.mp hstep
  simp only [Threads.advance] at hadvance
  split at hadvance
  next rest hframes =>
    cases hadvance
    have hthread : s.thread (.proc t) = s.on c := by rw [State.on, hcur]
    have hpos : 0 < (s.cpu c).noff := by
      have hdepth := ((h.on c).busy hframes rfl).2
      rw [(h.on c).noff_eq]
      omega
    have hsaved := h.saved c t hcur hpos b (hthread ▸ hb)
    rw [saved_cons hframes rfl] at hsaved
    simp only [popOffStep, (h.on c).popOff_eq hframes, cpu_put] at hzero ⊢
    have hone : (s.cpu c).noff = 1 := by omega
    simp [hone, hsaved]
  · cases hadvance

/-! ## The interrupt state of a thread -/

/-- On every CPU interrupts are off under a `push_off`, `noff` counts the open calls of the
running thread, and the outermost release of a process restores the interrupts. -/
theorem interrupt_state_follows_thread (intena intr : C → Bool)
    (hrun : Lib.Run step Balanced (boot intena intr) s) :
    s.panic = none ∧
      (∀ c, 0 < (s.cpu c).noff → (s.cpu c).intr = false) ∧
      (∀ c, (s.cpu c).noff = (s.thread (s.cur c)).depth) ∧
      ∀ c t s', s.cur c = .proc t → step s (.popOff c) = some s' → (s'.cpu c).noff = 0 →
        ∀ b ∈ (s.thread (.proc t)).before, (s'.cpu c).intr = b := by
  have h := Wf.of_run hrun
  refine ⟨h.panic, fun c => (h.on c).off, fun c => (h.on c).noff_eq, ?_⟩
  intro c t s' hcur hstep hzero b hb
  exact h.intr_of_popOff hcur hstep hzero b hb

end Steps

/-- A process acquires its lock on the first CPU with interrupts enabled, and is resumed
on the second, whose interrupts were never enabled. -/
def migration : List (Act Bool Unit Unit) :=
  [.intrOn false, .intrGet false (some (.proc ())), .pushOff false, .take false,
    .allocproc false (), .ready false (), .run false (), .release false (.proc ()), .popOff false,
    .trap false, .sret false,
    .intrGet false (some (.proc ())), .pushOff false, .take false, .sched false .runnable,
    .release false (.proc ()), .popOff false,
    .intrGet true (some (.proc ())), .pushOff true, .take true, .run true (), .resume true,
    .release true (.proc ())]

theorem interrupt_state_follows_thread_migrated :
    ∃ s : State Bool Unit Unit,
      Lib.Run step Balanced (boot (fun _ => false) (fun _ => false)) s ∧
      (s.cur true = Thread.proc () ∧ s.cpu true = ⟨1, true, false⟩ ∧
        (s.thread (.proc ())).before = some true) ∧
      s.panic = none ∧
      ∀ s', step s (.popOff true) = some s' → (s'.cpu true).noff = 0 →
        (s'.cpu true).intr = true := by
  have hexec : (Lib.exec step Balanced (boot (fun _ => false) (fun _ => false)) migration).map
      (fun s => decide (s.cur true = Thread.proc () ∧ s.cpu true = ⟨1, true, false⟩ ∧
        (s.thread (.proc ())).before = some true)) = some true := by
    decide +kernel
  obtain ⟨s, hrun, hs⟩ := Lib.exec_reaches hexec
  have hs' := of_decide_eq_true hs
  obtain ⟨hpanic, -, -, hrestore⟩ := interrupt_state_follows_thread _ _ hrun
  refine ⟨s, hrun, hs', hpanic, ?_⟩
  intro s' hstep hzero
  exact hrestore true () s' hs'.1 hstep hzero true hs'.2.2

end Threads
end Xv6
