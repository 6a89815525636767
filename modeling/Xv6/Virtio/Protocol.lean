import Mathlib.Data.List.Nodup
import Mathlib.Data.List.Perm.Subperm
import Mathlib.Data.List.Range
import Xv6.Virtio.Driver

/-!
# The request protocol of the virtio disk

A chain takes three of the eight descriptors, so that at most two requests are in
flight.  This is what makes the comparison of the used indices modulo `NUM` sound, and
what keeps the available ring from overflowing.

Main results:

- Theorem {lit}`Wf.length_entries_le`: at most two requests are in flight.
- Theorem {lit}`wf_step`: one step keeps the invariant.
- Theorem {lit}`intr_spec`: the handler clears the flags of the completed requests and
  wakes their callers, and nothing else.
- Theorem {lit}`virtio_protocol_safe`: descriptors, rings and completions in every run.
-/

namespace Xv6
namespace Virtio

open Lib State Function

/-! ## The invariant -/

/-- The buffer that a call works on. -/
def Call.buf : Call → Option Nat
  | .idle => none
  | .alloc b _ | .allocSleep b _ => some b
  | .wait w | .waitSleep w => some w.b

/-- The requests that the interrupt handler has not yet seen completed. -/
def State.entries (s : State) : List Request :=
  s.queued ++ (s.jobs.map Job.req ++ s.done)

/-- The three descriptors of a request. -/
structure Chain (s : State) (w : Wait) : Prop where
  lt : ∀ i ∈ w.idx, i < num
  nodup : w.idx.Nodup
  info : s.info w.i0 = some w.b
  head : (s.desc w.i0).flags &&& descNext ≠ 0 ∧ (s.desc w.i0).next = w.i1
  middle : (s.desc w.i1).flags &&& descNext ≠ 0 ∧ (s.desc w.i1).next = w.i2
  last : (s.desc w.i2).flags &&& descNext = 0
  data : (s.desc w.i1).addr = some (.data w.b)

/-- The descriptor pool: the chains are disjoint, and the rest is free. -/
structure Pool (s : State) : Prop where
  chain : ∀ p w, s.waiting p = some w → Chain s w
  disjoint : ∀ p q w w', s.waiting p = some w → s.waiting q = some w' → p ≠ q →
    w.idx.Disjoint w'.idx
  free_iff : ∀ i, i < num → (s.free i = true ↔ ∀ p w, s.waiting p = some w → i ∉ w.idx)

/-- The requests in flight belong to waiting processes, whose buffers are with the device.  A
waiting process without one has had its request completed. -/
structure Flight (s : State) (entries : List Request) : Prop where
  entry : ∀ r ∈ entries, ∃ w, s.waiting r.p = some w ∧
    (w.i0 = r.head ∧ w.b = r.b ∧ w.seq = r.seq) ∧ s.disk r.b = true
  nodup : (entries.map Request.p).Nodup
  settled : ∀ p w, s.waiting p = some w → (∀ r ∈ entries, r.p ≠ p) →
    s.disk w.b = false ∧ ⟨w.i0, p, w.b, w.seq⟩ ∈ s.completed

/-- The two rings hold the heads of the requests that are on their way. -/
structure Rings (s : State) : Prop where
  seen_lt : s.seen < 2 ^ 16
  availIdx_lt : s.availIdx < 2 ^ 16
  avail : s.queued.map Request.head = buffered (2 ^ 16) num s.avail s.seen s.availIdx
  usedIdx_lt : s.usedIdx < num
  used : s.done.map Request.head = buffered num num s.used s.usedIdx (s.usedId % num)

/-- The invariant of the driver and the device. -/
structure Wf (s : State) : Prop extends Pool s, Rings s where
  panic : s.panic = none
  flight : Flight s s.entries
  holder : ∀ p b, (s.call p).buf = some b → s.holder b = some p
  status : ∀ i, s.status i = 0
  jobs : ∀ j ∈ s.jobs, j.data = some (.data j.req.b)
  done : ∀ r ∈ s.done, r ∈ s.completed
  history : s.completed.map Request.b = s.processed ++ s.done.map Request.b

/-- The invariant holds at boot. -/
theorem wf_boot : Wf boot where
  chain := nofun
  disjoint := nofun
  free_iff := by
    intro i _
    exact ⟨fun _ _ _ hw => (nomatch hw), fun _ => rfl⟩
  seen_lt := by decide
  availIdx_lt := by decide
  avail := (buffered_empty _ (by decide)).symm
  usedIdx_lt := by decide
  used := (buffered_empty _ (by decide)).symm
  panic := rfl
  flight := ⟨nofun, List.nodup_nil, nofun⟩
  holder := nofun
  status _ := rfl
  jobs := nofun
  done := nofun
  history := rfl

section Bound

variable {s : State}

/-- A waiting process works on the buffer of its request. -/
theorem waiting_buf {p : Nat} {w : Wait} (h : s.waiting p = some w) :
    (s.call p).buf = some w.b := by
  unfold State.waiting at h
  cases hcall : s.call p <;> rw [hcall] at h <;> cases h <;> rfl

/-- Waiting processes have different buffers. -/
theorem Wf.buf_ne (h : Wf s) {p q b b' : Nat} (hp : (s.call p).buf = some b)
    (hq : (s.call q).buf = some b') (hne : p ≠ q) : b ≠ b' := by
  rintro rfl
  have heq := (h.holder p b hp).symm.trans (h.holder q b hq)
  exact hne (Option.some.inj heq)

/-- The descriptors of the process that has made a request. -/
def State.idxOf (s : State) (r : Request) : List Nat :=
  match s.waiting r.p with
  | some w => w.idx
  | none => []

/-- The descriptors of a request are those of its process. -/
theorem idxOf_eq {r : Request} {w : Wait} (h : s.waiting r.p = some w) : s.idxOf r = w.idx := by
  unfold State.idxOf
  rw [h]

/-- Eight descriptors are enough for two requests only. -/
theorem Pool.length_le {entries : List Request} (hpool : Pool s) (h : Flight s entries) :
    entries.length ≤ 2 := by
  have hlen : (entries.flatMap s.idxOf).length = 3 * entries.length := by
    rw [List.length_flatMap]
    have hthree : entries.map (fun r => (s.idxOf r).length) = entries.map fun _ => 3 := by
      apply List.map_congr_left
      intro r hr
      obtain ⟨w, hw, -⟩ := h.entry r hr
      rw [idxOf_eq hw]
      rfl
    rw [hthree]
    simp [Nat.mul_comm]
  have hnodup : (entries.flatMap s.idxOf).Nodup := by
    rw [List.nodup_flatMap]
    refine ⟨?_, ?_⟩
    · intro r hr
      obtain ⟨w, hw, -⟩ := h.entry r hr
      rw [idxOf_eq hw]
      exact (hpool.chain _ _ hw).nodup
    · have hpair := List.pairwise_map.mp h.nodup
      refine hpair.imp_of_mem ?_
      intro r r' hr hr' hne
      obtain ⟨w, hw, -⟩ := h.entry r hr
      obtain ⟨w', hw', -⟩ := h.entry r' hr'
      change List.Disjoint (s.idxOf r) (s.idxOf r')
      rw [idxOf_eq hw, idxOf_eq hw']
      exact hpool.disjoint _ _ _ _ hw hw' hne
  have hsub : entries.flatMap s.idxOf ⊆ List.range num := by
    intro i hi
    obtain ⟨r, hr, hi⟩ := List.mem_flatMap.mp hi
    obtain ⟨w, hw, -⟩ := h.entry r hr
    rw [idxOf_eq hw] at hi
    exact List.mem_range.mpr ((hpool.chain _ _ hw).lt i hi)
  have hle := (hnodup.subperm hsub).length_le
  rw [hlen, List.length_range] at hle
  unfold num at hle
  omega

/-- At most two requests are in flight. -/
theorem Wf.length_entries_le (h : Wf s) : s.entries.length ≤ 2 :=
  h.toPool.length_le h.flight

/-- The requests in flight, by where they are. -/
theorem length_entries (s : State) :
    s.entries.length = s.queued.length + (s.jobs.length + s.done.length) := by
  simp [State.entries]

/-- The flag of a waiting process is set exactly while its request is on its way. -/
theorem Flight.disk_iff {entries : List Request} (h : Flight s entries) {p : Nat} {w : Wait}
    (hw : s.waiting p = some w) : s.disk w.b = true ↔ ⟨w.i0, p, w.b, w.seq⟩ ∈ entries := by
  constructor
  · intro hdisk
    by_contra hnot
    have hnone : ∀ r ∈ entries, r.p ≠ p := by
      rintro r hr rfl
      obtain ⟨w', hw', ⟨hi0, hb, hseq⟩, -⟩ := h.entry r hr
      rw [hw] at hw'
      cases hw'
      exact hnot (by rw [hi0, hb, hseq]; exact hr)
    rw [(h.settled p w hw hnone).1] at hdisk
    cases hdisk
  · intro hr
    obtain ⟨-, -, -, hdisk⟩ := h.entry _ hr
    exact hdisk

end Bound

/-! ## Moves of the callers -/

section Frame

variable {s s' : State}

/-- The descriptors of a chain are not free. -/
theorem Pool.not_free (h : Pool s) {p : Nat} {w : Wait} (hw : s.waiting p = some w) {i : Nat}
    (hi : i ∈ w.idx) : s.free i = false := by
  rw [← Bool.not_eq_true, h.free_iff i ((h.chain p w hw).lt i hi)]
  exact fun hall => hall p w hw hi

/-- Only the place of a process says what it waits for. -/
theorem waiting_congr {p : Nat} (h : s'.call p = s.call p) : s'.waiting p = s.waiting p := by
  unfold State.waiting
  rw [h]

/-- A chain depends on its own descriptors only. -/
theorem Chain.congr {w : Wait} (h : Chain s w) (hinfo : s'.info w.i0 = s.info w.i0)
    (hdesc : ∀ i ∈ w.idx, s'.desc i = s.desc i) : Chain s' w := by
  have h0 := hdesc w.i0 (by simp [Wait.idx])
  have h1 := hdesc w.i1 (by simp [Wait.idx])
  have h2 := hdesc w.i2 (by simp [Wait.idx])
  refine ⟨h.lt, h.nodup, hinfo.trans h.info, ?_, ?_, ?_, ?_⟩ <;> simp only [h0, h1, h2]
  exacts [h.head, h.middle, h.last, h.data]

/-- The pool depends on the descriptors and the waiting processes. -/
theorem Pool.congr (h : Pool s) (hdesc : s'.desc = s.desc) (hinfo : s'.info = s.info)
    (hfree : s'.free = s.free) (hwaiting : ∀ p, s'.waiting p = s.waiting p) : Pool s' where
  chain p w hw := by
    rw [hwaiting] at hw
    refine (h.chain p w hw).congr (by rw [hinfo]) ?_
    intro i _
    rw [hdesc]
  disjoint p q w w' hw hw' hne := by
    rw [hwaiting] at hw hw'
    exact h.disjoint p q w w' hw hw' hne
  free_iff i hi := by
    simp only [hfree, hwaiting]
    exact h.free_iff i hi

/-- The requests in flight depend on the flags and the waiting processes. -/
theorem Flight.congr {entries : List Request} (h : Flight s entries)
    (hwaiting : ∀ p, s'.waiting p = s.waiting p) (hdisk : s'.disk = s.disk)
    (hcompleted : s'.completed = s.completed) : Flight s' entries where
  entry r hr := by
    rw [hwaiting, hdisk]
    exact h.entry r hr
  nodup := h.nodup
  settled p w hw hr := by
    rw [hwaiting] at hw
    rw [hdisk, hcompleted]
    exact h.settled p w hw hr

/-- A step that leaves the chains, the rings and the requests alone. -/
theorem Wf.same (h : Wf s) (desc : Nat → Desc) (call : Nat → Call) (holder : Nat → Option Nat)
    (hs' : s' = { s with desc := desc, call := call, holder := holder })
    (hdesc : ∀ i, s.free i = false → desc i = s.desc i)
    (hwaiting : ∀ p, s'.waiting p = s.waiting p)
    (hholder : ∀ p b, (call p).buf = some b → holder b = some p) : Wf s' := by
  subst hs'
  refine ⟨⟨?_, ?_, ?_⟩, { h with }, h.panic,
    h.flight.congr hwaiting rfl rfl, hholder, h.status, h.jobs, h.done, h.history⟩
  · intro p w hw
    rw [hwaiting] at hw
    refine (h.chain p w hw).congr rfl ?_
    intro i hi
    exact hdesc i (h.not_free hw hi)
  · intro p q w w' hw hw' hne
    rw [hwaiting] at hw hw'
    exact h.disjoint p q w w' hw hw' hne
  · intro i hi
    simp only [hwaiting]
    exact h.free_iff i hi

/-- A step that only changes the place of one process, with its chain and its buffer. -/
theorem Wf.setCall (h : Wf s) {p : Nat} {c : Call} (hbuf : c.buf = (s.call p).buf)
    (hwaiting : c.waiting = (s.call p).waiting) : Wf (s.setCall p c) := by
  apply h.same _ _ _ rfl (fun _ _ => rfl)
  · intro q
    obtain rfl | hne := eq_or_ne q p
    · change (update s.call q c q).waiting = _
      rw [update_self]
      exact hwaiting
    · exact waiting_congr (update_of_ne hne _ _)
  · intro q b hb
    obtain rfl | hne := eq_or_ne q p
    · rw [update_self, hbuf] at hb
      exact h.holder q b hb
    · rw [update_of_ne hne] at hb
      exact h.holder q b hb

end Frame

/-! ## Freeing and allocating descriptors -/

/-- The effect of `free_desc` on some descriptors. -/
structure Freed (s : State) (is : List Nat) (s' : State) : Prop where
  rest : s' = { s with desc := s'.desc, free := s'.free, call := s'.call }
  free : ∀ i, s'.free i = (decide (i ∈ is) || s.free i)
  desc : ∀ i, i ∉ is → s'.desc i = s.desc i
  links : ∀ i, (s'.desc i).flags = (s.desc i).flags ∧ (s'.desc i).next = (s.desc i).next
  waiting : ∀ p, s'.waiting p = s.waiting p
  buf : ∀ p, (s'.call p).buf = (s.call p).buf

section Descriptors

variable {s s' s'' : State} {i : Nat} {is js : List Nat}

/-- Waking up those without descriptors. -/
theorem waiting_wakeupFree (s : State) (p : Nat) : s.wakeupFree.waiting p = s.waiting p := by
  unfold State.waiting State.wakeupFree
  cases hcall : s.call p <;> simp [hcall, Call.waiting]

/-- Waking up those without descriptors leaves them their buffers. -/
theorem buf_wakeupFree (s : State) (p : Nat) : (s.wakeupFree.call p).buf = (s.call p).buf := by
  unfold State.wakeupFree
  cases hcall : s.call p <;> simp [hcall, Call.buf]

/-- Freeing nothing. -/
theorem Freed.nil (s : State) : Freed s [] s :=
  ⟨rfl, fun _ => by simp, fun _ _ => rfl, fun _ => ⟨rfl, rfl⟩, fun _ => rfl, fun _ => rfl⟩

/-- Freeing some descriptors and then others. -/
theorem Freed.trans (h : Freed s is s') (h' : Freed s' js s'') : Freed s (is ++ js) s'' where
  rest := by
    rw [h'.rest, h.rest]
  free k := by
    rw [h'.free, h.free]
    by_cases hi : k ∈ is <;> by_cases hj : k ∈ js <;> simp [hi, hj]
  desc k hk := by
    rw [List.mem_append, not_or] at hk
    rw [h'.desc k hk.2, h.desc k hk.1]
  links k := ⟨(h'.links k).1.trans (h.links k).1, (h'.links k).2.trans (h.links k).2⟩
  waiting p := (h'.waiting p).trans (h.waiting p)
  buf p := (h'.buf p).trans (h.buf p)

/-- `free_desc` of a descriptor in use does not panic. -/
theorem freeDesc_spec (hi : i < num) (hfree : s.free i = false) :
    ∃ s', freeDesc s i = .ok s' ∧ Freed s [i] s' := by
  unfold freeDesc
  rw [if_neg (Nat.not_le.mpr hi), if_neg (by simp [hfree])]
  refine ⟨_, rfl, rfl, ?_, ?_, ?_, ?_, ?_⟩
  · intro k
    change update s.free i true k = _
    rw [update_apply]
    split <;> simp [*]
  · intro k hk
    exact update_of_ne (by simpa using hk) _ _
  · intro k
    change (update s.desc i _ k).flags = _ ∧ (update s.desc i _ k).next = _
    obtain rfl | hne := eq_or_ne k i
    · simp
    · simp [hne]
  · exact waiting_wakeupFree _
  · exact buf_wakeupFree _

/-- The loop that gives descriptors back. -/
theorem freeAll_spec (hlt : ∀ i ∈ is, i < num) (hnodup : is.Nodup)
    (hfree : ∀ i ∈ is, s.free i = false) : ∃ s', freeAll is s = .ok s' ∧ Freed s is s' := by
  induction is generalizing s with
  | nil => exact ⟨s, rfl, .nil s⟩
  | cons i is ih =>
    obtain ⟨hi, hnodup⟩ := List.nodup_cons.mp hnodup
    obtain ⟨s₁, hs₁, hfreed⟩ := freeDesc_spec (hlt i (by simp)) (hfree i (by simp))
    have hfree₁ : ∀ k ∈ is, s₁.free k = false := by
      intro k hk
      have hne : k ≠ i := fun heq => hi (heq ▸ hk)
      rw [hfreed.free, hfree k (List.mem_cons_of_mem _ hk)]
      simp [hne]
    obtain ⟨s', hs', hrest⟩ := ih (fun k hk => hlt k (List.mem_cons_of_mem _ hk)) hnodup hfree₁
    refine ⟨s', ?_, hfreed.trans hrest⟩
    unfold freeAll
    rw [hs₁]
    exact hs'

/-- One turn of `free_chain` where the chain goes on. -/
theorem freeChain_next {k : Nat} (hi : i < num) (hfree : s.free i = false)
    (hnext : (s.desc i).flags &&& descNext ≠ 0) :
    ∃ s', Freed s [i] s' ∧ freeChain (k + 1) s i = freeChain k s' (s.desc i).next := by
  obtain ⟨s', hs', hfreed⟩ := freeDesc_spec hi hfree
  refine ⟨s', hfreed, ?_⟩
  simp only [freeChain, hs', bind, Except.bind, (hfreed.links i).1, (hfreed.links i).2]
  rw [if_pos hnext]

/-- The last turn of `free_chain`. -/
theorem freeChain_last {k : Nat} (hi : i < num) (hfree : s.free i = false)
    (hlast : (s.desc i).flags &&& descNext = 0) :
    ∃ s', Freed s [i] s' ∧ freeChain (k + 1) s i = .ok s' := by
  obtain ⟨s', hs', hfreed⟩ := freeDesc_spec hi hfree
  refine ⟨s', hfreed, ?_⟩
  simp only [freeChain, hs', bind, Except.bind, (hfreed.links i).1]
  rw [if_neg (not_not.mpr hlast)]

/-- `free_chain` frees the three descriptors of a request. -/
theorem freeChain_spec {w : Wait} (hlt : ∀ i ∈ w.idx, i < num) (hnodup : w.idx.Nodup)
    (hfree : ∀ i ∈ w.idx, s.free i = false)
    (hhead : (s.desc w.i0).flags &&& descNext ≠ 0 ∧ (s.desc w.i0).next = w.i1)
    (hmiddle : (s.desc w.i1).flags &&& descNext ≠ 0 ∧ (s.desc w.i1).next = w.i2)
    (hlast : (s.desc w.i2).flags &&& descNext = 0) :
    ∃ s', freeChain (num + 1) s w.i0 = .ok s' ∧ Freed s w.idx s' := by
  simp only [Wait.idx, List.nodup_cons, List.mem_cons, List.not_mem_nil, or_false, not_or] at hnodup
  obtain ⟨⟨h01, h02⟩, h12, -⟩ := hnodup
  have hlt0 := hlt w.i0 (by simp [Wait.idx])
  have hlt1 := hlt w.i1 (by simp [Wait.idx])
  have hlt2 := hlt w.i2 (by simp [Wait.idx])
  have hfree1 := hfree w.i1 (by simp [Wait.idx])
  have hfree2 := hfree w.i2 (by simp [Wait.idx])
  obtain ⟨s₁, hfreed₁, hs₁⟩ := freeChain_next (k := num) hlt0 (hfree w.i0 (by simp [Wait.idx]))
    hhead.1
  rw [hhead.2] at hs₁
  have hfree₁ : s₁.free w.i1 = false := by
    rw [hfreed₁.free, hfree1]
    simp [Ne.symm h01]
  obtain ⟨s₂, hfreed₂, hs₂⟩ := freeChain_next (k := num - 1) hlt1 hfree₁
    (by rw [(hfreed₁.links w.i1).1]; exact hmiddle.1)
  rw [(hfreed₁.links w.i1).2, hmiddle.2] at hs₂
  have hfree₂ : s₂.free w.i2 = false := by
    rw [hfreed₂.free, hfreed₁.free, hfree2]
    simp [Ne.symm h02, Ne.symm h12]
  obtain ⟨s₃, hfreed₃, hs₃⟩ := freeChain_last (k := num - 2) hlt2 hfree₂
    (by rw [(hfreed₂.links w.i2).1, (hfreed₁.links w.i2).1]; exact hlast)
  exact ⟨s₃, hs₁.trans (hs₂.trans hs₃), hfreed₁.trans (hfreed₂.trans hfreed₃)⟩

/-- Some descriptors have been taken from the pool. -/
def State.claim (s : State) (is : List Nat) : State :=
  { s with free := fun i => if i ∈ is then false else s.free i }

/-- `alloc_desc` finds a free descriptor. -/
theorem allocDesc_some (h : allocDesc s = some (i, s')) :
    i < num ∧ s.free i = true ∧ s' = s.claim [i] := by
  obtain ⟨k, hk, heq⟩ := Option.map_eq_some_iff.mp h
  cases heq
  refine ⟨List.mem_range.mp (List.mem_of_find?_eq_some hk), List.find?_some hk, ?_⟩
  unfold State.claim
  congr 1
  funext j
  rw [update_apply]
  simp

/-- Taking one descriptor more. -/
theorem claim_claim (s : State) (is : List Nat) (i : Nat) :
    (s.claim is).claim [i] = s.claim (is ++ [i]) := by
  unfold State.claim
  congr 1
  funext j
  by_cases hj : j = i
  · simp [hj]
  · simp [hj]

/-- `alloc3_desc` finds descriptors that were free, or gives all of them back. -/
theorem allocLoop_spec {k : Nat} (hlt : ∀ i ∈ is, i < num) (hnodup : is.Nodup)
    (hfree : ∀ i ∈ is, s.free i = true) :
    (∃ js, allocLoop k is (s.claim is) = .ok (some js, s.claim js) ∧
      js.length = is.length + k ∧ (∀ i ∈ js, i < num) ∧ js.Nodup ∧ ∀ i ∈ js, s.free i = true) ∨
    ∃ js s', allocLoop k is (s.claim is) = .ok (none, s') ∧ (∀ i ∈ js, s.free i = true) ∧
      Freed (s.claim js) js s' := by
  induction k generalizing is with
  | zero => exact Or.inl ⟨is, rfl, rfl, hlt, hnodup, hfree⟩
  | succ k ih =>
    unfold allocLoop
    cases halloc : allocDesc (s.claim is) with
    | some res =>
      obtain ⟨i, s₁⟩ := res
      obtain ⟨hi, hifree, rfl⟩ := allocDesc_some halloc
      have hnot : i ∉ is := by
        intro hmem
        simp [State.claim, hmem] at hifree
      have hifree' : s.free i = true := by simpa [State.claim, hnot] using hifree
      rw [claim_claim]
      have hlt' : ∀ j ∈ is ++ [i], j < num :=
        List.forall_mem_append.mpr ⟨hlt, by simpa using hi⟩
      have hfree' : ∀ j ∈ is ++ [i], s.free j = true :=
        List.forall_mem_append.mpr ⟨hfree, by simpa using hifree'⟩
      have hnodup' : (is ++ [i]).Nodup := by
        rw [List.nodup_append_comm]
        exact List.nodup_cons.mpr ⟨hnot, hnodup⟩
      obtain ⟨js, hjs, hlen, hrest⟩ | hnone := ih hlt' hnodup' hfree'
      · refine Or.inl ⟨js, hjs, ?_, hrest⟩
        rw [hlen, List.length_append, List.length_singleton]
        omega
      · exact Or.inr hnone
    | none =>
      have hclaimed : ∀ i ∈ is, (s.claim is).free i = false := by
        intro i hi
        simp [State.claim, hi]
      obtain ⟨s', hs', hfreed⟩ := freeAll_spec hlt hnodup hclaimed
      refine Or.inr ⟨is, s', ?_, hfree, hfreed⟩
      simp only [hs', bind, Except.bind]

end Descriptors

/-! ## Making a request -/

section Requests

variable {s s' : State} {p b : Nat} {write : Bool}

/-- A process that finds too few descriptors. -/
theorem Wf.allocSleep {js : List Nat} (h : Wf s) (hcall : s.call p = .alloc b write)
    (hjs : ∀ i ∈ js, s.free i = true) (hfreed : Freed (s.claim js) js s') :
    Wf (s'.setCall p (.allocSleep b write)) := by
  have hfree : s'.free = s.free := by
    funext i
    rw [hfreed.free]
    by_cases hi : i ∈ js
    · simp [hi, hjs i hi]
    · simp [hi, State.claim]
  have hrest := hfreed.rest
  have hbuf : ∀ q, (s'.call q).buf = (s.call q).buf := hfreed.buf
  apply h.same s'.desc (update s'.call p (.allocSleep b write)) s.holder
  · rw [hfree] at hrest
    rw [hrest]
    rfl
  · intro i hi
    apply hfreed.desc i
    intro hmem
    rw [hjs i hmem] at hi
    cases hi
  · intro q
    obtain rfl | hne := eq_or_ne q p
    · change (update s'.call q (.allocSleep b write) q).waiting = (s.call q).waiting
      rw [update_self, hcall]
      rfl
    · exact (waiting_congr (update_of_ne hne _ _)).trans (hfreed.waiting q)
  · intro q b' hb'
    obtain rfl | hne := eq_or_ne q p
    · rw [update_self] at hb'
      apply h.holder q b'
      rw [hcall]
      exact hb'
    · rw [update_of_ne hne, hbuf] at hb'
      exact h.holder q b' hb'

section Post

variable {i0 i1 i2 : Nat}

/-- A request is made by one process. -/
theorem waiting_post (s : State) (p b : Nat) (write : Bool) (i0 i1 i2 q : Nat) :
    (post s p b write i0 i1 i2).waiting q =
      if q = p then some ⟨b, i0, i1, i2, s.seq⟩ else s.waiting q := by
  change (update s.call p (.waitSleep ⟨b, i0, i1, i2, s.seq⟩) q).waiting = _
  rw [update_apply]
  split <;> rfl

/-- Descriptors outside the new chain. -/
theorem desc_post {i : Nat} (hi : i ∉ [i0, i1, i2]) :
    (post s p b write i0 i1 i2).desc i = s.desc i := by
  simp only [List.mem_cons, List.not_mem_nil, or_false, not_or] at hi
  simp [post, hi.1, hi.2.1, hi.2.2]

/-- The descriptors of a new request are a chain. -/
theorem chain_post (hlt : ∀ i ∈ [i0, i1, i2], i < num) (hnodup : [i0, i1, i2].Nodup) :
    Chain (post s p b write i0 i1 i2) ⟨b, i0, i1, i2, s.seq⟩ := by
  have hne := hnodup
  simp only [List.nodup_cons, List.mem_cons, List.not_mem_nil, or_false, not_or] at hne
  obtain ⟨⟨h01, h02⟩, h12, -⟩ := hne
  refine ⟨hlt, hnodup, ?_, ?_, ?_, ?_, ?_⟩
  · simp [post]
  · simp [post, h01, h02, descNext]
  · cases write <;> simp [post, h12, descNext, descWrite]
  · simp [post, descNext, descWrite]
  · simp [post, h12]

/-- A new request keeps the pool. -/
theorem Pool.post (h : Pool s) (hnone : s.waiting p = none)
    (hlt : ∀ i ∈ [i0, i1, i2], i < num) (hnodup : [i0, i1, i2].Nodup)
    (hfree : ∀ i ∈ [i0, i1, i2], s.free i = true) :
    Pool (Virtio.post (s.claim [i0, i1, i2]) p b write i0 i1 i2) := by
  -- The chains of the others have no free descriptor.
  have hothers : ∀ q w, s.waiting q = some w → ∀ i ∈ w.idx, i ∉ [i0, i1, i2] := by
    intro q w hw i hi hmem
    have hfalse := h.not_free hw hi
    rw [hfree i hmem] at hfalse
    cases hfalse
  have hcases : ∀ q w,
      (Virtio.post (s.claim [i0, i1, i2]) p b write i0 i1 i2).waiting q = some w →
      (q = p ∧ w = ⟨b, i0, i1, i2, s.seq⟩) ∨ (q ≠ p ∧ s.waiting q = some w) := by
    intro q w hw
    rw [waiting_post] at hw
    split at hw
    · cases hw
      exact Or.inl ⟨by assumption, rfl⟩
    · exact Or.inr ⟨by assumption, hw⟩
  refine ⟨?_, ?_, ?_⟩
  · intro q w hw
    obtain ⟨-, rfl⟩ | ⟨-, hw⟩ := hcases q w hw
    · exact chain_post hlt hnodup
    · have hnot := hothers q w hw
      refine (h.chain q w hw).congr ?_ ?_
      · apply update_of_ne
        intro heq
        exact hnot w.i0 (by simp [Wait.idx]) (by simp [heq])
      · intro i hi
        exact desc_post (hnot i hi)
  · intro q q' w w' hw hw' hne
    obtain ⟨hq, rfl⟩ | ⟨-, hold⟩ := hcases q w hw <;>
      obtain ⟨hq', rfl⟩ | ⟨-, hold'⟩ := hcases q' w' hw'
    · exact absurd (hq.trans hq'.symm) hne
    · intro i hi hi'
      exact hothers q' w' hold' i hi' hi
    · exact fun i hi hi' => hothers q w hold i hi hi'
    · exact h.disjoint q q' w w' hold hold' hne
  · intro i hi
    change (if i ∈ [i0, i1, i2] then false else s.free i) = true ↔ _
    by_cases hmem : i ∈ [i0, i1, i2]
    · rw [if_pos hmem]
      constructor
      · exact nofun
      · intro hall
        exact absurd hmem (hall p ⟨b, i0, i1, i2, s.seq⟩ (by rw [waiting_post, if_pos rfl]; rfl))
    · rw [if_neg hmem, h.free_iff i hi]
      constructor
      · intro hall q w hw
        obtain ⟨-, rfl⟩ | ⟨-, hw⟩ := hcases q w hw
        · exact hmem
        · exact hall q w hw
      · intro hall q w hw
        apply hall q w
        rw [waiting_post, if_neg]
        · exact hw
        · rintro rfl
          rw [hnone] at hw
          cases hw

/-- A new request is in flight. -/
theorem Flight.post {before after : List Request} (h : Flight s (before ++ after))
    (hnone : s.waiting p = none) (hbuf : ∀ q w, s.waiting q = some w → w.b ≠ b) :
    Flight (Virtio.post (s.claim [i0, i1, i2]) p b write i0 i1 i2)
      ((before ++ [⟨i0, p, b, s.seq⟩]) ++ after) := by
  have hdisk : ∀ b', b' ≠ b →
      (Virtio.post (s.claim [i0, i1, i2]) p b write i0 i1 i2).disk b' = s.disk b' :=
    fun b' hne => update_of_ne hne _ _
  have hperm : ((before ++ [(⟨i0, p, b, s.seq⟩ : Request)]) ++ after).Perm
      (⟨i0, p, b, s.seq⟩ :: (before ++ after)) := by
    rw [List.append_assoc]
    exact List.perm_middle
  refine ⟨?_, ?_, ?_⟩
  · intro r hr
    rw [hperm.mem_iff, List.mem_cons] at hr
    obtain rfl | hr := hr
    · refine ⟨⟨b, i0, i1, i2, s.seq⟩, ?_, ⟨rfl, rfl, rfl⟩, ?_⟩
      · rw [waiting_post, if_pos rfl]
        rfl
      · exact update_self _ _ _
    · obtain ⟨w, hw, hmatch, hd⟩ := h.entry r hr
      have hne : r.p ≠ p := by
        intro heq
        rw [heq, hnone] at hw
        cases hw
      refine ⟨w, ?_, hmatch, ?_⟩
      · rw [waiting_post, if_neg hne]
        exact hw
      · rw [hdisk _ (hmatch.2.1 ▸ hbuf r.p w hw)]
        exact hd
  · rw [(hperm.map Request.p).nodup_iff, List.map_cons, List.nodup_cons]
    refine ⟨?_, h.nodup⟩
    intro hmem
    obtain ⟨r, hr, heq⟩ := List.mem_map.mp hmem
    obtain ⟨w, hw, -⟩ := h.entry r hr
    rw [heq, hnone] at hw
    cases hw
  · intro q w hw hnot
    rw [waiting_post] at hw
    split at hw
    next heq =>
      exact absurd heq.symm (hnot ⟨i0, p, b, s.seq⟩ (by simp))
    · have hold := h.settled q w hw fun r hr =>
        hnot r (hperm.mem_iff.mpr (List.mem_cons_of_mem _ hr))
      rw [hdisk _ (hbuf q w hw)]
      exact hold

/-- A new request goes to the end of the available ring. -/
theorem Rings.post (h : Rings s) (hroom : s.queued.length < num) :
    Rings (Virtio.post (s.claim [i0, i1, i2]) p b write i0 i1 i2) where
  seen_lt := h.seen_lt
  availIdx_lt := Nat.mod_lt _ (by decide)
  avail := by
    have hahead : ahead (2 ^ 16) s.seen s.availIdx = s.queued.length := by
      rw [← length_buffered, ← h.avail, List.length_map]
    have hpush : buffered (2 ^ 16) num (update s.avail (s.availIdx % num) i0) s.seen
        ((s.availIdx + 1) % 2 ^ 16) = buffered (2 ^ 16) num s.avail s.seen s.availIdx ++ [i0] :=
      buffered_push (by decide) h.seen_lt h.availIdx_lt (by omega) (by decide) i0
    change (s.queued ++ [_]).map Request.head = buffered _ _ _ _ _
    rw [List.map_append, h.avail]
    exact hpush.symm
  usedIdx_lt := h.usedIdx_lt
  used := h.used

/-- A process that makes its request. -/
theorem Wf.post (h : Wf s) (hcall : s.call p = .alloc b write)
    (hlt : ∀ i ∈ [i0, i1, i2], i < num) (hnodup : [i0, i1, i2].Nodup)
    (hfree : ∀ i ∈ [i0, i1, i2], s.free i = true) :
    Wf (Virtio.post (s.claim [i0, i1, i2]) p b write i0 i1 i2) := by
  have hnone : s.waiting p = none := by
    rw [State.waiting, hcall]
    rfl
  have hpbuf : (s.call p).buf = some b := by
    rw [hcall]
    rfl
  have hbuf : ∀ q w, s.waiting q = some w → w.b ≠ b := by
    intro q w hw
    have hne : q ≠ p := by
      rintro rfl
      rw [hnone] at hw
      cases hw
    exact h.buf_ne (waiting_buf hw) hpbuf hne
  have hroom : s.queued.length < num := by
    have hle := h.length_entries_le
    rw [length_entries] at hle
    unfold num
    omega
  refine ⟨h.toPool.post hnone hlt hnodup hfree, h.toRings.post hroom, h.panic,
    h.flight.post hnone hbuf, ?_, ?_, h.jobs, h.done, h.history⟩
  · intro q b' hb'
    change (update s.call p (.waitSleep ⟨b, i0, i1, i2, s.seq⟩) q).buf = some b' at hb'
    rw [update_apply] at hb'
    split at hb'
    next heq =>
      cases hb'
      rw [heq]
      exact h.holder p b hpbuf
    · exact h.holder q b' hb'
  · intro i
    change update s.status i0 0 i = 0
    rw [update_apply]
    split
    · rfl
    · exact h.status i

end Post

/-- The first loop of `virtio_disk_rw`. -/
theorem allocStep_spec (h : Wf s) (hcall : s.call p = .alloc b write) :
    ∃ s', allocStep s p b write = .ok s' ∧ Wf s' := by
  have hclaim : s.claim [] = s := by simp [State.claim]
  have hnil : ∀ i ∈ ([] : List Nat), i < num := nofun
  have hspec := allocLoop_spec (s := s) (k := 3) hnil List.nodup_nil nofun
  rw [hclaim] at hspec
  unfold allocStep alloc3Desc
  obtain ⟨js, hjs, hlen, hlt, hnodup, hfree⟩ | ⟨js, s', hs', hfree, hfreed⟩ := hspec
  · rw [hjs]
    obtain ⟨i0, i1, i2, rfl⟩ := List.length_eq_three.mp hlen
    exact ⟨_, rfl, h.post hcall hlt hnodup hfree⟩
  · rw [hs']
    exact ⟨_, rfl, h.allocSleep hcall hfree hfreed⟩

end Requests

/-! ## Returning from a request -/

section Return

variable {s s' : State} {p : Nat} {w : Wait}

/-- A waiting process whose buffer is no longer with the device has no request in flight. -/
theorem Flight.not_entry {entries : List Request} (h : Flight s entries)
    (hw : s.waiting p = some w) (hdisk : s.disk w.b = false) : ∀ r ∈ entries, r.p ≠ p := by
  rintro r hr rfl
  obtain ⟨w', hw', ⟨-, hb, -⟩, hd⟩ := h.entry r hr
  rw [hw] at hw'
  cases hw'
  rw [← hb, hdisk] at hd
  cases hd

/-- The state in which `virtio_disk_rw` calls `free_chain`. -/
def State.detach (s : State) (p : Nat) (w : Wait) : State :=
  { s with info := update s.info w.i0 none, call := update s.call p .idle }

/-- A process that frees its chain no longer waits. -/
theorem waiting_detach (s : State) (p : Nat) (w : Wait) (q : Nat) :
    (s.detach p w).waiting q = if q = p then none else s.waiting q := by
  change (update s.call p .idle q).waiting = _
  rw [update_apply]
  split <;> rfl

/-- Freeing a chain keeps the pool. -/
theorem Pool.free (h : Pool s) (hw : s.waiting p = some w)
    (hfreed : Freed (s.detach p w) w.idx s') : Pool s' := by
  have hcases : ∀ q w', s'.waiting q = some w' → q ≠ p ∧ s.waiting q = some w' := by
    intro q w' hw'
    rw [hfreed.waiting, waiting_detach] at hw'
    split at hw'
    · cases hw'
    · exact ⟨by assumption, hw'⟩
  have hinfo : s'.info = update s.info w.i0 none := by
    rw [hfreed.rest]
    rfl
  refine ⟨?_, ?_, ?_⟩
  · intro q w' hw'
    obtain ⟨hne, hold⟩ := hcases q w' hw'
    have hdisj := h.disjoint q p w' w hold hw hne
    refine (h.chain q w' hold).congr ?_ ?_
    · rw [hinfo]
      apply update_of_ne
      intro heq
      exact hdisj (a := w'.i0) (by simp [Wait.idx]) (by simp [Wait.idx, heq])
    · intro i hi
      exact hfreed.desc i (fun hmem => hdisj hi hmem)
  · intro q q' w' w'' hw' hw'' hne
    exact h.disjoint q q' w' w'' (hcases q w' hw').2 (hcases q' w'' hw'').2 hne
  · intro i hi
    rw [hfreed.free]
    change (decide (i ∈ w.idx) || s.free i) = true ↔ _
    rw [Bool.or_eq_true, decide_eq_true_iff, h.free_iff i hi]
    constructor
    · rintro (hmem | hall) q w' hw'
      · obtain ⟨hne, hold⟩ := hcases q w' hw'
        exact fun hi' => h.disjoint q p w' w hold hw hne hi' hmem
      · exact hall q w' (hcases q w' hw').2
    · intro hall
      by_cases hmem : i ∈ w.idx
      · exact Or.inl hmem
      · refine Or.inr ?_
        intro q w' hw'
        obtain rfl | hne := eq_or_ne q p
        · rw [hw] at hw'
          cases hw'
          exact hmem
        · apply hall q w'
          rw [hfreed.waiting, waiting_detach, if_neg hne]
          exact hw'

/-- A process that gives its descriptors back. -/
theorem Wf.free (h : Wf s) (hw : s.waiting p = some w) (hdisk : s.disk w.b = false)
    (hfreed : Freed (s.detach p w) w.idx s') : Wf s' := by
  have hnot := h.flight.not_entry hw hdisk
  have hwaiting : ∀ q, s'.waiting q = if q = p then none else s.waiting q :=
    fun q => (hfreed.waiting q).trans (waiting_detach s p w q)
  have hbuf : ∀ q b, (s'.call q).buf = some b → (s.call q).buf = some b := by
    intro q b hb
    rw [hfreed.buf] at hb
    change (update s.call p .idle q).buf = some b at hb
    rw [update_apply] at hb
    split at hb
    · cases hb
    · exact hb
  have hpool := h.toPool.free hw hfreed
  have hflight : Flight s' s.entries := by
    refine ⟨?_, h.flight.nodup, ?_⟩
    · intro r hr
      rw [hwaiting, if_neg (hnot r hr), hfreed.rest]
      exact h.flight.entry r hr
    · intro q w' hw' hr
      rw [hwaiting] at hw'
      split at hw'
      · cases hw'
      · rw [hfreed.rest]
        exact h.flight.settled q w' hw' hr
  have hrest := hfreed.rest
  generalize s'.desc = d at hrest
  generalize s'.free = f at hrest
  generalize s'.call = c at hrest hbuf
  subst hrest
  exact ⟨hpool, { h with }, h.panic, hflight,
    fun q b hb => h.holder q b (hbuf q b hb), h.status, h.jobs, h.done, h.history⟩

/-- The second loop of `virtio_disk_rw`. -/
theorem waitStep_spec (h : Wf s) (hcall : s.call p = .wait w) :
    ∃ s', waitStep s p w = .ok s' ∧ Wf s' := by
  have hw : s.waiting p = some w := by
    rw [State.waiting, hcall]
    rfl
  unfold waitStep
  split
  · refine ⟨_, rfl, h.setCall ?_ ?_⟩
    · rw [hcall]
      rfl
    · rw [hcall]
      rfl
  next hdisk =>
    have hchain := h.chain p w hw
    obtain ⟨s', hs', hfreed⟩ := freeChain_spec (s := s.detach p w) hchain.lt hchain.nodup
      (fun i hi => h.not_free hw hi) hchain.head hchain.middle hchain.last
    exact ⟨s', hs', h.free hw (Bool.eq_false_iff.mpr hdisk) hfreed⟩

end Return

/-! ## The device and the interrupt handler -/

section Device

variable {s s' : State}

/-- The order of the requests in flight does not matter. -/
theorem Flight.perm {entries entries' : List Request} (h : Flight s entries)
    (hperm : entries'.Perm entries) : Flight s entries' where
  entry r hr := h.entry r (hperm.mem_iff.mp hr)
  nodup := ((hperm.map Request.p).nodup_iff).mpr h.nodup
  settled p w hw hr := h.settled p w hw (fun r hmem => hr r (hperm.mem_iff.mpr hmem))

/-- The oldest request of a ring that is not empty. -/
theorem map_eq_cons {rs : List Request} {head : Nat} {heads : List Nat}
    (h : rs.map Request.head = head :: heads) :
    ∃ r rest, rs = r :: rest ∧ r.head = head ∧ rest.map Request.head = heads := by
  cases rs with
  | nil => cases h
  | cons r rest =>
    obtain ⟨hhead, hrest⟩ := List.cons.inj h
    exact ⟨r, rest, rfl, hhead, hrest⟩

/-- The oldest request in the available ring, as the device finds it. -/
theorem Wf.nextJob_eq (h : Wf s) (hne : s.seen ≠ s.availIdx) :
    ∃ r rest, s.queued = r :: rest ∧ s.nextJob = ⟨r, some (.data r.b)⟩ ∧
      rest.map Request.head = buffered (2 ^ 16) num s.avail ((s.seen + 1) % 2 ^ 16) s.availIdx := by
  have hpop : buffered (2 ^ 16) num s.avail s.seen s.availIdx = s.avail (s.seen % num) ::
      buffered (2 ^ 16) num s.avail ((s.seen + 1) % 2 ^ 16) s.availIdx :=
    buffered_pop h.seen_lt h.availIdx_lt hne
  obtain ⟨r, rest, hqueued, hhead, hrest⟩ := map_eq_cons (h.avail.trans hpop)
  refine ⟨r, rest, hqueued, ?_, hrest⟩
  have hmem : r ∈ s.entries := by
    unfold State.entries
    rw [hqueued]
    exact List.mem_append_left _ List.mem_cons_self
  obtain ⟨w, hw, ⟨hi0, hb, -⟩, -⟩ := h.flight.entry r hmem
  have hchain := h.chain _ w hw
  unfold State.nextJob
  simp only [hqueued, List.headD_cons, ← hhead]
  rw [← hi0, hchain.head.2, hchain.data, hb, hi0]

/-- The device takes the oldest request. -/
theorem Wf.consume (h : Wf s) (hstep : consume s = some s') : Wf s' := by
  obtain ⟨hne, ⟨⟩⟩ := Option.ite_none_left_eq_some.mp hstep
  obtain ⟨r, rest, hqueued, hjob, hrest⟩ := h.nextJob_eq hne
  rw [hjob]
  refine ⟨h.toPool.congr rfl rfl rfl (fun _ => rfl),
    ⟨Nat.mod_lt _ (by decide), h.availIdx_lt, ?_, h.usedIdx_lt, h.used⟩, h.panic, ?_, h.holder,
    h.status, ?_, h.done, h.history⟩
  · change s.queued.tail.map Request.head = _
    rw [hqueued]
    exact hrest
  · change Flight _ (s.queued.tail ++
      ((s.jobs ++ [(⟨r, some (.data r.b)⟩ : Job)]).map Job.req ++ s.done))
    have hperm : (rest ++ ((s.jobs.map Job.req ++ [r]) ++ s.done)).Perm s.entries := by
      unfold State.entries
      rw [hqueued, List.append_assoc, ← List.append_assoc rest, ← List.append_assoc (r :: rest)]
      exact List.perm_middle
    rw [hqueued, List.tail_cons, List.map_append, List.map_singleton]
    exact (h.flight.perm hperm).congr (fun _ => rfl) rfl rfl
  · exact List.forall_mem_append.mpr ⟨h.jobs, by simp⟩

/-- The device completes a request.  The used ring has room, since at most two requests
are in flight. -/
theorem Wf.complete {k : Nat} (h : Wf s) (hstep : complete s k = some s') : Wf s' := by
  obtain ⟨job, hjob, rfl⟩ := Option.map_eq_some_iff.mp hstep
  obtain ⟨hk, hget⟩ := List.getElem?_eq_some_iff.mp hjob
  have hmem : job ∈ s.jobs := List.mem_of_getElem? hjob
  have hjobs : (job :: s.jobs.eraseIdx k).Perm s.jobs := by
    rw [← hget]
    exact List.getElem_cons_eraseIdx_perm hk
  have hroom : s.done.length + 1 < num := by
    have hle := h.length_entries_le
    have hpos := List.length_pos_of_mem hmem
    rw [length_entries] at hle
    unfold num
    omega
  refine ⟨h.toPool.congr rfl rfl rfl (fun _ => rfl),
    ⟨h.seen_lt, h.availIdx_lt, h.avail, h.usedIdx_lt, ?_⟩, h.panic, ?_, h.holder, ?_, ?_, ?_, ?_⟩
  · have hlt : s.usedId % num < num := Nat.mod_lt _ (by decide)
    have hahead : ahead num s.usedIdx (s.usedId % num) = s.done.length := by
      rw [← length_buffered, ← h.used, List.length_map]
    have hpush : buffered num num
        (update s.used (s.usedId % num % num) job.req.head) s.usedIdx
        ((s.usedId % num + 1) % num) =
          buffered num num s.used s.usedIdx (s.usedId % num) ++ [job.req.head] :=
      buffered_push_of_room (dvd_refl _) h.usedIdx_lt hlt (by omega) (by omega) job.req.head
    have hidx : (s.usedId + 1) % 2 ^ 16 % num = (s.usedId % num + 1) % num := by
      rw [Nat.mod_mod_of_dvd _ (by decide), Nat.mod_add_mod]
    rw [Nat.mod_mod] at hpush
    change (s.done ++ [job.req]).map Request.head = buffered num num _ s.usedIdx _
    rw [List.map_append, h.used, hidx]
    exact hpush.symm
  · have hperm : (s.queued ++ ((s.jobs.eraseIdx k).map Job.req ++ (s.done ++ [job.req]))).Perm
        s.entries := by
      apply List.Perm.append_left
      rw [← List.append_assoc]
      refine (List.perm_append_singleton _ _).trans ?_
      have hmap := hjobs.map Job.req
      rw [List.map_cons] at hmap
      exact hmap.append_right s.done
    have hflight := h.flight.perm hperm
    refine ⟨hflight.entry, hflight.nodup, ?_⟩
    intro p w hw hr
    obtain ⟨hdisk, hcompleted⟩ := hflight.settled p w hw hr
    exact ⟨hdisk, List.mem_append_left _ hcompleted⟩
  · intro i
    change update s.status job.req.head 0 i = 0
    rw [update_apply]
    split
    · rfl
    · exact h.status i
  · intro j hj
    exact h.jobs j (List.mem_of_mem_eraseIdx hj)
  · intro r hr
    obtain hr | hr := List.mem_append.mp hr
    · exact List.mem_append_left _ (h.done r hr)
    · exact List.mem_append_right _ hr
  · change (s.completed ++ [job.req]).map Request.b =
      s.processed ++ (s.done ++ [job.req]).map Request.b
    rw [List.map_append, List.map_append, h.history, List.append_assoc]

/-- Waking up those that wait for a buffer. -/
theorem waiting_wakeupBuf (s : State) (b p : Nat) : (s.wakeupBuf b).waiting p = s.waiting p := by
  unfold State.waiting State.wakeupBuf
  cases hcall : s.call p with
  | waitSleep w =>
    simp only [hcall]
    split <;> rfl
  | _ => simp [hcall]

/-- Waking up those that wait for a buffer leaves them their buffers. -/
theorem buf_wakeupBuf (s : State) (b p : Nat) :
    ((s.wakeupBuf b).call p).buf = (s.call p).buf := by
  unfold State.wakeupBuf
  cases hcall : s.call p with
  | waitSleep w =>
    simp only [hcall]
    split <;> rfl
  | _ => simp [hcall]

/-- The oldest entry of the used ring leads the handler to the buffer of its request. -/
theorem Wf.info_eq (h : Wf s) (hne : s.usedIdx % num ≠ s.usedId % num) :
    ∃ r rest, s.done = r :: rest ∧ s.info (s.used s.usedIdx) = some r.b ∧
      rest.map Request.head =
        buffered num num s.used ((s.usedIdx + 1) % num) (s.usedId % num) := by
  have hlt : s.usedId % num < num := Nat.mod_lt _ (by decide)
  have hidx : s.usedIdx ≠ s.usedId % num := by
    rwa [Nat.mod_eq_of_lt h.usedIdx_lt] at hne
  have hpop : buffered num num s.used s.usedIdx (s.usedId % num) = s.used (s.usedIdx % num) ::
      buffered num num s.used ((s.usedIdx + 1) % num) (s.usedId % num) :=
    buffered_pop h.usedIdx_lt hlt hidx
  rw [Nat.mod_eq_of_lt h.usedIdx_lt] at hpop
  obtain ⟨r, rest, hdone, hhead, hrest⟩ := map_eq_cons (h.used.trans hpop)
  have hmem : r ∈ s.entries := by
    unfold State.entries
    rw [hdone]
    exact List.mem_append_right _ (List.mem_append_right _ List.mem_cons_self)
  obtain ⟨w, hw, ⟨hi0, hb, -⟩, -⟩ := h.flight.entry r hmem
  refine ⟨r, rest, hdone, ?_, hrest⟩
  rw [← hhead, ← hi0, (h.chain _ w hw).info, hb]

/-- The end of a turn changes no request. -/
theorem waiting_finish (s : State) (b p : Nat) : (s.finish b).waiting p = s.waiting p :=
  waiting_wakeupBuf s b p

/-- The other requests after one has been finished. -/
theorem Flight.finish {r : Request} {entries : List Request} (h : Flight s (r :: entries))
    (hbuf : ∀ q w, s.waiting q = some w → q ≠ r.p → w.b ≠ r.b) (hr : r ∈ s.completed) :
    Flight (s.finish r.b) entries := by
  have hdisk : ∀ b, b ≠ r.b → (s.finish r.b).disk b = s.disk b :=
    fun b hne => update_of_ne hne _ _
  have hnodup := h.nodup
  rw [List.map_cons, List.nodup_cons] at hnodup
  refine ⟨?_, hnodup.2, ?_⟩
  · intro r' hr'
    obtain ⟨w, hw, hmatch, hd⟩ := h.entry r' (List.mem_cons_of_mem _ hr')
    have hne : r'.p ≠ r.p := fun heq => hnodup.1 (heq ▸ List.mem_map_of_mem hr')
    refine ⟨w, (waiting_finish s r.b r'.p).trans hw, hmatch, ?_⟩
    rw [hdisk _ (hmatch.2.1 ▸ hbuf r'.p w hw hne)]
    exact hd
  · intro q w hw hnot
    rw [waiting_finish] at hw
    obtain rfl | hne := eq_or_ne q r.p
    · obtain ⟨w', hw', ⟨hi0, hb, hseq⟩, -⟩ := h.entry r List.mem_cons_self
      rw [hw] at hw'
      cases hw'
      refine ⟨?_, ?_⟩
      · rw [hb]
        exact update_self _ _ _
      · rw [hi0, hb, hseq]
        exact hr
    · rw [hdisk _ (hbuf q w hw hne)]
      refine h.settled q w hw ?_
      intro r' hr' heq
      obtain rfl | hr' := List.mem_cons.mp hr'
      · exact hne heq.symm
      · exact hnot r' hr' heq

/-- What the handler does for some requests: it clears `b->disk` of their buffers and wakes
the processes that wait for them, and leaves the other buffers and processes alone. -/
structure Handled (s s' : State) (rs : List Request) : Prop where
  cleared : ∀ r ∈ rs, s'.disk r.b = false
  woken : ∀ r ∈ rs, ∃ w, s.waiting r.p = some w ∧ s'.call r.p = .wait w
  disk : ∀ b, (∀ r ∈ rs, r.b ≠ b) → s'.disk b = s.disk b
  call : ∀ p, (∀ r ∈ rs, r.p ≠ p) → s'.call p = s.call p

/-- Handling no request does nothing. -/
theorem Handled.nil (s : State) : Handled s s [] :=
  ⟨nofun, nofun, fun _ _ => rfl, fun _ _ => rfl⟩

/-- Handling one request and then others. -/
theorem Handled.cons {r : Request} {rs : List Request} {s₁ : State} (h : Handled s s₁ [r])
    (hwaiting : ∀ p, s₁.waiting p = s.waiting p) (hrest : Handled s₁ s' rs) :
    Handled s s' (r :: rs) := by
  have hne : ∀ {α : Type} {f : Request → α} {x : α}, (∀ r' ∈ r :: rs, f r' ≠ x) →
      (∀ r' ∈ [r], f r' ≠ x) ∧ ∀ r' ∈ rs, f r' ≠ x := by
    intro α f x hall
    simpa using hall
  refine ⟨?_, ?_, ?_, ?_⟩
  · rw [List.forall_mem_cons]
    refine ⟨?_, hrest.cleared⟩
    by_cases hsame : ∃ r' ∈ rs, r'.b = r.b
    · obtain ⟨r', hr', heq⟩ := hsame
      exact heq ▸ hrest.cleared r' hr'
    · push Not at hsame
      exact (hrest.disk _ hsame).trans (h.cleared r List.mem_cons_self)
  · rw [List.forall_mem_cons]
    refine ⟨?_, fun r' hr' => hwaiting r'.p ▸ hrest.woken r' hr'⟩
    by_cases hsame : ∃ r' ∈ rs, r'.p = r.p
    · obtain ⟨r', hr', heq⟩ := hsame
      exact heq ▸ hwaiting r'.p ▸ hrest.woken r' hr'
    · push Not at hsame
      rw [hrest.call _ hsame]
      exact h.woken r List.mem_cons_self
  · intro b hb
    exact (hrest.disk b (hne hb).2).trans (h.disk b (hne hb).1)
  · intro p hp
    exact (hrest.call p (hne hp).2).trans (h.call p (hne hp).1)

/-- The end of one turn handles the request whose buffer has been found. -/
theorem handled_finish {r : Request} {w : Wait} (hw : s.waiting r.p = some w) (hb : w.b = r.b)
    (hbuf : ∀ q w', s.waiting q = some w' → q ≠ r.p → w'.b ≠ r.b) :
    Handled s (s.finish r.b) [r] := by
  simp only [State.waiting] at hw hbuf
  refine ⟨?_, ?_, ?_, ?_⟩
  · simp [State.finish]
  · simp only [List.mem_singleton, forall_eq]
    refine ⟨w, hw, ?_⟩
    cases hcall : s.call r.p <;> rw [hcall] at hw <;> cases hw <;>
      simp [State.finish, State.wakeupBuf, hcall, hb]
  · intro b hne
    exact update_of_ne (Ne.symm (hne r List.mem_cons_self)) _ _
  · intro q hne
    have hq := Ne.symm (hne r List.mem_cons_self)
    cases hcall : s.call q with
    | waitSleep w' =>
      have := hbuf q w' (by rw [hcall]; rfl) hq
      simp [State.finish, State.wakeupBuf, hcall, this]
    | _ => simp [State.finish, State.wakeupBuf, hcall]

/-- One turn of the handler. -/
theorem intrStep_spec (h : Wf s) (hne : s.usedIdx % num ≠ s.usedId % num) :
    ∃ r s', intrStep s = .ok s' ∧ Wf s' ∧ s.done = r :: s'.done ∧ Handled s s' [r] ∧
      ∀ p, s'.waiting p = s.waiting p := by
  obtain ⟨r, rest, hdone, hinfo, hrest⟩ := h.info_eq hne
  unfold intrStep
  simp only [h.status, ne_eq, not_true_eq_false, if_false, hinfo]
  have hperm : (r :: (s.queued ++ (s.jobs.map Job.req ++ rest))).Perm s.entries := by
    unfold State.entries
    rw [hdone, ← List.append_assoc, ← List.append_assoc]
    exact List.perm_middle.symm
  have hflight := h.flight.perm hperm
  obtain ⟨w, hw, ⟨-, hb, -⟩, -⟩ := hflight.entry r List.mem_cons_self
  have hbuf : ∀ q w', s.waiting q = some w' → q ≠ r.p → w'.b ≠ r.b := by
    intro q w' hw' hq
    rw [← hb]
    exact h.buf_ne (waiting_buf hw') (waiting_buf hw) hq
  refine ⟨r, _, rfl, ?_, ?_, handled_finish hw hb hbuf, waiting_finish s r.b⟩
  · refine ⟨h.toPool.congr rfl rfl rfl (waiting_finish s r.b),
      ⟨h.seen_lt, h.availIdx_lt, h.avail, Nat.mod_lt _ (by decide), ?_⟩, h.panic, ?_, ?_, h.status,
      h.jobs, ?_, ?_⟩
    · change s.done.tail.map Request.head = _
      rw [hdone]
      exact hrest
    · change Flight _ (s.queued ++ (s.jobs.map Job.req ++ s.done.tail))
      rw [hdone]
      exact hflight.finish hbuf (h.done r (by rw [hdone]; exact List.mem_cons_self))
    · intro q b hb'
      exact h.holder q b ((buf_wakeupBuf s r.b q).symm.trans hb')
    · intro r' hr'
      exact h.done r' (List.mem_of_mem_tail hr')
    · have hhistory := h.history
      change s.completed.map Request.b = (s.processed ++ [r.b]) ++ s.done.tail.map Request.b
      rw [hhistory, hdone, List.append_assoc]
      rfl
  · change s.done = r :: s.done.tail
    rw [hdone]
    rfl

/-- The handler goes through all the entries of the used ring. -/
theorem intrLoop_spec {k : Nat} (h : Wf s) (hk : s.done.length ≤ k) :
    ∃ s', intrLoop k s = .ok s' ∧ Wf s' ∧ s'.done = [] ∧ Handled s s' s.done := by
  induction k generalizing s with
  | zero =>
    have hnil := List.eq_nil_of_length_eq_zero (Nat.le_zero.mp hk)
    exact ⟨s, rfl, h, hnil, hnil ▸ .nil s⟩
  | succ k ih =>
    unfold intrLoop
    split
    next hne =>
      obtain ⟨r, s₁, hs₁, hwf, hdone, hhandled, hwaiting⟩ := intrStep_spec h hne
      rw [hdone, List.length_cons] at hk
      rw [hs₁]
      obtain ⟨s', hs', hwf', hnil, hrest⟩ := ih hwf (by omega)
      exact ⟨s', hs', hwf', hnil, hdone ▸ hhandled.cons hwaiting hrest⟩
    next heq =>
      suffices hnil : s.done = [] from ⟨s, rfl, h, hnil, hnil ▸ .nil s⟩
      have hidx : s.usedIdx = s.usedId % num := by
        rw [not_not, Nat.mod_eq_of_lt h.usedIdx_lt] at heq
        exact heq
      have hnil := h.used
      rw [← hidx, buffered_empty _ h.usedIdx_lt] at hnil
      exact List.map_eq_nil_iff.mp hnil

/-- `virtio_disk_intr` handles every request with an unread entry. -/
theorem intr_spec (h : Wf s) :
    ∃ s', intr s = .ok s' ∧ Wf s' ∧ s'.done = [] ∧ Handled s s' s.done := by
  apply intrLoop_spec h
  have hle := h.length_entries_le
  rw [length_entries] at hle
  unfold num
  omega

end Device

/-! ## Every run -/

section Runs

variable {s s' : State}

/-- `acquiresleep` keeps the invariant. -/
theorem Wf.lock (h : Wf s) {p b : Nat} (hfree : s.holder b = none) :
    Wf { s with holder := update s.holder b (some p) } := by
  refine h.same s.desc s.call _ rfl (fun _ _ => rfl) (fun _ => rfl) ?_
  intro q b' hb'
  have hold := h.holder q b' hb'
  rw [update_of_ne]
  · exact hold
  · rintro rfl
    rw [hfree] at hold
    cases hold

/-- `releasesleep` keeps the invariant. -/
theorem Wf.unlock (h : Wf s) {p b : Nat} (hp : s.holder b = some p) (hidle : s.call p = .idle) :
    Wf { s with holder := update s.holder b none } := by
  refine h.same s.desc s.call _ rfl (fun _ _ => rfl) (fun _ => rfl) ?_
  intro q b' hb'
  have hold := h.holder q b' hb'
  rw [update_of_ne]
  · exact hold
  · rintro rfl
    rw [hp] at hold
    cases hold
    rw [hidle] at hb'
    cases hb'

/-- A call of `virtio_disk_rw` keeps the invariant. -/
theorem Wf.rw (h : Wf s) {p b : Nat} {write : Bool} (hp : s.holder b = some p)
    (hidle : s.call p = .idle) : Wf (s.setCall p (.alloc b write)) := by
  apply h.same _ _ _ rfl (fun _ _ => rfl)
  · intro q
    change (update s.call p (.alloc b write) q).waiting = (s.call q).waiting
    rw [update_apply]
    split
    next heq =>
      rw [heq, hidle]
      rfl
    · rfl
  · intro q b' hb'
    rw [update_apply] at hb'
    split at hb'
    next heq =>
      cases hb'
      rw [heq]
      exact hp
    · exact h.holder q b' hb'

/-- `kill` keeps the invariant. -/
theorem Wf.kill (h : Wf s) (p : Nat) : Wf (s.setCall p (killed (s.call p))) := by
  apply h.setCall
  · cases s.call p <;> rfl
  · cases s.call p <;> rfl

/-- The step lemma. -/
theorem wf_step {a : Act} (h : Wf s) (hstep : step s a = some s') : Wf s' := by
  obtain ⟨-, hstep⟩ := Option.ite_none_right_eq_some.mp hstep
  cases a with
  | lock p b =>
    obtain ⟨hfree, ⟨⟩⟩ := Option.ite_none_right_eq_some.mp hstep
    exact h.lock hfree
  | unlock p b =>
    obtain ⟨⟨hp, hidle⟩, ⟨⟩⟩ := Option.ite_none_right_eq_some.mp hstep
    exact h.unlock hp hidle
  | rw p b write =>
    obtain ⟨⟨hp, hidle⟩, ⟨⟩⟩ := Option.ite_none_right_eq_some.mp hstep
    exact h.rw hp hidle
  | run p =>
    obtain ⟨res, hres, rfl⟩ := Option.map_eq_some_iff.mp hstep
    unfold runStep at hres
    split at hres
    iterate 3 cases hres
    next b write hcall =>
      cases hres
      obtain ⟨s₁, hs₁, hwf⟩ := allocStep_spec h hcall
      rw [hs₁]
      exact hwf
    next w hcall =>
      cases hres
      obtain ⟨s₁, hs₁, hwf⟩ := waitStep_spec h hcall
      rw [hs₁]
      exact hwf
  | kill p =>
    cases hstep
    exact h.kill p
  | intr =>
    cases hstep
    obtain ⟨s₁, hs₁, hwf, -⟩ := intr_spec h
    rw [hs₁]
    exact hwf
  | consume => exact h.consume hstep
  | complete k => exact h.complete hstep

/-- The invariant holds in every run. -/
theorem Wf.of_run (hrun : Run step (fun _ _ => True) boot s) : Wf s :=
  hrun.invariant wf_boot fun _ _ _ h _ hstep => wf_step h hstep

/-- A `virtio_disk_rw` that returns has had its own request completed. -/
theorem Wf.completed_of_return (h : Wf s) {p : Nat} {w : Wait} (hw : s.waiting p = some w)
    (hstep : step s (.run p) = some s') (hret : s'.waiting p = none) :
    ⟨w.i0, p, w.b, w.seq⟩ ∈ s.completed := by
  obtain ⟨-, hstep⟩ := Option.ite_none_right_eq_some.mp hstep
  obtain ⟨res, hres, rfl⟩ := Option.map_eq_some_iff.mp hstep
  unfold State.waiting at hw
  unfold runStep at hres
  cases hcall : s.call p with
  | wait w' =>
    rw [hcall] at hw hres
    cases hw
    cases hres
    have hwait : s.waiting p = some w := by
      unfold State.waiting
      rw [hcall]
      rfl
    by_cases hdisk : s.disk w.b = true
    · have hsleep : (s.setCall p (.waitSleep w)).waiting p = some w := by
        change (update s.call p (.waitSleep w) p).waiting = some w
        rw [update_self]
        rfl
      simp only [waitStep, hdisk, if_true, settle] at hret
      rw [hsleep] at hret
      cases hret
    · have hfalse := Bool.eq_false_iff.mpr hdisk
      exact (h.flight.settled p w hwait (h.flight.not_entry hwait hfalse)).2
  | waitSleep w' =>
    rw [hcall] at hres
    cases hres
  | idle | alloc _ _ | allocSleep _ _ =>
    rw [hcall] at hw
    cases hw

/-- The request protocol in every run: no panic; the chains of the requests in flight are
disjoint, and a descriptor is free if and only if it is in none of them; the ring holds the
requests that the device has still to take, in their order; the buffers that the handler
has found are those of the completed requests, one each and in their order, except for the
requests with an unread entry; the flag `b->disk` of a waiting process is set if and only if
its request is in flight or has an unread entry; the handler clears the flags of the
requests with an unread entry and wakes their callers, touches nobody else, and leaves no
entry unread; and `virtio_disk_rw` returns after its own request. -/
theorem virtio_protocol_safe (hrun : Run step (fun _ _ => True) boot s) :
    s.panic = none ∧
    (∀ p q w w', s.waiting p = some w → s.waiting q = some w' → p ≠ q →
      w.idx.Disjoint w'.idx) ∧
    (∀ i, i < num → (s.free i = true ↔ ∀ p w, s.waiting p = some w → i ∉ w.idx)) ∧
    s.queued.map Request.head = buffered (2 ^ 16) num s.avail s.seen s.availIdx ∧
    (s.done.map Request.head = buffered num num s.used s.usedIdx (s.usedId % num) ∧
      s.completed.map Request.b = s.processed ++ s.done.map Request.b ∧
      (∀ p w, s.waiting p = some w →
        (s.disk w.b = true ↔ ⟨w.i0, p, w.b, w.seq⟩ ∈ s.queued ++ (s.jobs.map Job.req ++ s.done))) ∧
      ∀ s', step s .intr = some s' → s'.done = [] ∧ Handled s s' s.done) ∧
    ∀ p w s', s.waiting p = some w → step s (.run p) = some s' → s'.waiting p = none →
      ⟨w.i0, p, w.b, w.seq⟩ ∈ s.completed := by
  have h := Wf.of_run hrun
  refine ⟨h.panic, h.disjoint, h.free_iff, h.avail,
    ⟨h.used, h.history, fun p w => h.flight.disk_iff, ?_⟩, ?_⟩
  · intro s' hstep
    obtain ⟨-, ⟨⟩⟩ := Option.ite_none_right_eq_some.mp hstep
    obtain ⟨s₁, hs₁, -, hdone⟩ := intr_spec h
    rw [hs₁]
    exact hdone
  · intro p w s' hw hstep hret
    exact h.completed_of_return hw hstep hret

end Runs

/-- Two processes write two buffers; the device completes the second request first, and the
handler wakes its caller. -/
def twoWrites : List Act :=
  [.lock 0 7, .rw 0 7 true, .run 0, .lock 1 9, .rw 1 9 true, .run 1, .consume, .consume,
    .complete 1, .intr]

/-- In that run the second call returns, after its own request, while the first goes on. -/
theorem virtio_protocol_safe_two_writes :
    ∃ s s', Run step (fun _ _ => True) boot s ∧
      (s.waiting 1 = some ⟨9, 3, 4, 5, 1⟩ ∧ s.disk 9 = false ∧ s.disk 7 = true) ∧
      step s (.run 1) = some s' ∧ s'.call 1 = .idle ∧ s.panic = none ∧
      ⟨3, 1, 9, 1⟩ ∈ s.completed := by
  have hexec : (exec step (fun _ _ => True) boot twoWrites).map
      (fun s => (decide (s.waiting 1 = some ⟨9, 3, 4, 5, 1⟩ ∧ s.disk 9 = false ∧
        s.disk 7 = true), (step s (.run 1)).map fun s' => s'.call 1)) =
        some (true, some .idle) := by
    decide +kernel
  obtain ⟨s, hrun, hs⟩ := exec_reaches hexec
  obtain ⟨hobs, hlast⟩ := Prod.mk.inj hs
  obtain ⟨s', hstep, hidle⟩ := Option.map_eq_some_iff.mp hlast
  have hobs' := of_decide_eq_true hobs
  obtain ⟨hpanic, -, -, -, -, hreturn⟩ := virtio_protocol_safe hrun
  have hnone : s'.waiting 1 = none := by
    rw [State.waiting, hidle]
    rfl
  exact ⟨s, s', hrun, hobs', hstep, hidle, hpanic, hreturn 1 _ s' hobs'.1 hstep hnone⟩

end Virtio
end Xv6
