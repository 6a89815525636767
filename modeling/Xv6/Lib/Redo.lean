import Mathlib.Data.List.Infix
import Mathlib.Tactic

/-!
# Redo logs

A redo log is a header block followed by log blocks, in one area of a disk.  The
header names the home blocks of a committed transaction, and the log block at
the same index holds the data for each.  A crash keeps a prefix of the block
writes that were issued.

Main results:

- Theorem {lit}`Durable.recovery`: a recovery that is cut short after any of its
  writes leaves the recoverable contents as they were.
- Theorem {lit}`Durable.disk_eq`: once the header is clear, the disk itself holds
  the recoverable contents.
- Theorem {lit}`durable_commit`: a commit takes effect with the write of its
  header, at once and for all its blocks; what it writes afterwards is a recovery.
-/

namespace Xv6
namespace Lib

open Function

variable {β : Type}

/-! ## Block writes -/

/-- The disk after a sequence of block writes. -/
def applyWrites (d : Nat → β) (ws : List (Nat × β)) : Nat → β :=
  ws.foldl (fun d w => update d w.1 w.2) d

@[simp]
theorem applyWrites_nil (d : Nat → β) : applyWrites d [] = d := rfl

@[simp]
theorem applyWrites_cons (d : Nat → β) (w : Nat × β) (ws : List (Nat × β)) :
    applyWrites d (w :: ws) = applyWrites (update d w.1 w.2) ws := rfl

/-- Writes in two parts. -/
theorem applyWrites_append (d : Nat → β) (ws ws' : List (Nat × β)) :
    applyWrites d (ws ++ ws') = applyWrites (applyWrites d ws) ws' :=
  List.foldl_append

/-- A block that no write names keeps its contents. -/
theorem applyWrites_of_notMem {d : Nat → β} {ws : List (Nat × β)} {b : Nat}
    (hnot : ∀ w ∈ ws, w.1 ≠ b) : applyWrites d ws b = d b := by
  induction ws generalizing d with
  | nil => rfl
  | cons w ws ih =>
    rw [applyWrites_cons, ih fun w' hw' => hnot w' (by simp [hw'])]
    exact update_of_ne (hnot w (by simp)).symm _ _

/-- Writes to distinct blocks all take effect. -/
theorem applyWrites_range {d : Nat → β} {n i : Nat} {target : Nat → Nat} {v : Nat → β}
    (hinj : ∀ i < n, ∀ j < n, target i = target j → i = j) (hi : i < n) :
    applyWrites d ((List.range n).map fun i => (target i, v i)) (target i) = v i := by
  induction n with
  | zero => omega
  | succ n ih =>
    rw [List.range_succ, List.map_append, applyWrites_append]
    simp only [List.map_cons, List.map_nil, applyWrites_cons, applyWrites_nil]
    by_cases heq : i = n
    · simp [heq]
    · have hne : target i ≠ target n := fun h => heq (hinj i hi n (by omega) h)
      rw [update_of_ne hne]
      exact ih (fun i hi j hj => hinj i (by omega) j (by omega)) (by omega)

/-- A prefix of a concatenation ends in the first or in the second part. -/
theorem prefix_append_cases {γ : Type} {l l₁ l₂ : List γ} (h : l <+: l₁ ++ l₂) :
    l <+: l₁ ∨ ∃ l', l = l₁ ++ l' ∧ l' <+: l₂ := by
  rcases List.prefix_or_prefix_of_prefix h (List.prefix_append l₁ l₂) with h₁ | ⟨l', rfl⟩
  · exact Or.inl h₁
  · exact Or.inr ⟨l', rfl, (List.prefix_append_right_inj l₁).mp h⟩

/-! ## Redo logs on a disk -/

/-- The place of a redo log and the coding of its header block. -/
structure RedoLog (β : Type) where
  start : Nat
  size : Nat
  count : β → Nat
  home : β → Nat → Nat

namespace RedoLog

variable (L : RedoLog β)

/-- Blocks of the log area. -/
def Area (b : Nat) : Prop :=
  L.start ≤ b ∧ b < L.start + L.size

/-- Number of blocks that the header on disk names. -/
def pending (d : Nat → β) : Nat :=
  L.count (d L.start)

/-- The home of the `i`-th logged block. -/
def homeOf (d : Nat → β) (i : Nat) : Nat :=
  L.home (d L.start) i

/-- What recovery makes of a block. -/
def recovered (d : Nat → β) (b : Nat) : β :=
  match (List.range (L.pending d)).find? fun i => L.homeOf d i = b with
  | some i => d (L.start + 1 + i)
  | none => d b

/-- The header names distinct blocks outside the log area, and the log area has
room for them. -/
structure Valid (d : Nat → β) : Prop where
  fits : L.pending d < L.size
  distinct : ∀ i < L.pending d, ∀ j < L.pending d, L.homeOf d i = L.homeOf d j → i = j
  outside : ∀ i < L.pending d, ¬L.Area (L.homeOf d i)

/-- The contents `c` can be recovered from the disk `d`. -/
structure Durable (d c : Nat → β) : Prop where
  valid : L.Valid d
  recovers : ∀ b, ¬L.Area b → L.recovered d b = c b

/-- The writes of a recovery: install every logged block, then clear the header. -/
def recoveryWrites (d : Nat → β) (clear : β) : List (Nat × β) :=
  ((List.range (L.pending d)).map fun i => (L.homeOf d i, d (L.start + 1 + i))) ++
    [(L.start, clear)]

/-- The writes that put `n` blocks with the contents `c` into the log. -/
def logWrites (n : Nat) (block : Nat → Nat) (c : Nat → β) : List (Nat × β) :=
  (List.range n).map fun i => (L.start + 1 + i, c (block i))

/-- The writes of a commit up to and including the write of the header. -/
def commitWrites (n : Nat) (block : Nat → Nat) (c : Nat → β) (header : β) :
    List (Nat × β) :=
  L.logWrites n block c ++ [(L.start, header)]

/-- The writes that bring a committed transaction home. -/
def installWrites (n : Nat) (block : Nat → Nat) (c : Nat → β) (clear : β) : List (Nat × β) :=
  ((List.range n).map fun i => (block i, c (block i))) ++ [(L.start, clear)]

section Recovered

variable {L} {d d' : Nat → β}

/-- A block that is in the log. -/
theorem Valid.recovered_home (hvalid : L.Valid d) {i : Nat} (hi : i < L.pending d) :
    L.recovered d (L.homeOf d i) = d (L.start + 1 + i) := by
  unfold recovered
  cases hfind : (List.range (L.pending d)).find? fun j => L.homeOf d j = L.homeOf d i with
  | none =>
    have := List.find?_eq_none.mp hfind i (List.mem_range.mpr hi)
    simp at this
  | some j =>
    have hj := List.mem_range.mp (List.mem_of_find?_eq_some hfind)
    have heq := List.find?_some hfind
    rw [hvalid.distinct j hj i hi (by simpa using heq)]

/-- The other blocks. -/
theorem recovered_of_notHome {b : Nat} (hnot : ∀ i < L.pending d, L.homeOf d i ≠ b) :
    L.recovered d b = d b := by
  unfold recovered
  have hfind : ((List.range (L.pending d)).find? fun i => L.homeOf d i = b) = none := by
    rw [List.find?_eq_none]
    intro i hi
    simpa using hnot i (List.mem_range.mp hi)
  rw [hfind]

/-- A log block is in the log area. -/
theorem Valid.area_log (hvalid : L.Valid d) {i : Nat} (hi : i < L.pending d) :
    L.Area (L.start + 1 + i) := by
  have := hvalid.fits
  constructor <;> omega

/-- The header is in the log. -/
theorem Valid.area_start (hvalid : L.Valid d) : L.Area L.start := by
  have := hvalid.fits
  constructor <;> omega

/-- Validity is a property of the header block. -/
theorem Valid.congr (hvalid : L.Valid d) (hstart : d' L.start = d L.start) : L.Valid d' := by
  have hpending : L.pending d' = L.pending d := by simp [pending, hstart]
  have hhome : L.homeOf d' = L.homeOf d := by funext i; simp [homeOf, hstart]
  constructor
  · rw [hpending]
    exact hvalid.fits
  · rw [hpending, hhome]
    exact hvalid.distinct
  · rw [hpending, hhome]
    exact hvalid.outside

/-- A disk with a clear header is valid. -/
theorem valid_of_clear (hclear : L.pending d = 0) (hsize : 0 < L.size) : L.Valid d := by
  constructor
  · omega
  · intro i hi
    omega
  · intro i hi
    omega

end Recovered

/-! ## Recovery -/

section Recovery

variable {L} {d c : Nat → β} {clear : β}

/-- Home blocks may be overwritten while the header and the log blocks stay. -/
theorem Durable.of_homes {d' : Nat → β} (hdur : L.Durable d c)
    (harea : ∀ b, L.Area b → d' b = d b)
    (hother : ∀ b, (∀ i < L.pending d, L.homeOf d i ≠ b) → d' b = d b) : L.Durable d' c := by
  have hstart : d' L.start = d L.start := harea _ hdur.valid.area_start
  have hpending : L.pending d' = L.pending d := by simp [pending, hstart]
  have hhome : L.homeOf d' = L.homeOf d := by funext i; simp [homeOf, hstart]
  have hvalid : L.Valid d' := hdur.valid.congr hstart
  refine ⟨hvalid, ?_⟩
  intro b hb
  rw [← hdur.recovers b hb]
  by_cases hmem : ∃ i < L.pending d, L.homeOf d i = b
  · obtain ⟨i, hi, rfl⟩ := hmem
    rw [hdur.valid.recovered_home hi, ← hhome, hvalid.recovered_home (by rw [hpending]; exact hi)]
    exact harea _ (hdur.valid.area_log hi)
  · have hnot : ∀ i < L.pending d, L.homeOf d i ≠ b := fun i hi heq => hmem ⟨i, hi, heq⟩
    rw [recovered_of_notHome hnot, recovered_of_notHome (by rw [hpending, hhome]; exact hnot)]
    exact hother b hnot

/-- With a clear header the disk itself holds the recoverable contents. -/
theorem Durable.disk_eq (hdur : L.Durable d c) (hclear : L.pending d = 0) {b : Nat}
    (hb : ¬L.Area b) : d b = c b := by
  rw [← hdur.recovers b hb, recovered_of_notHome]
  intro i hi
  omega

/-- With an empty log the disk counts. -/
theorem durable_of_clear (hclear : L.pending d = 0) (hsize : 0 < L.size)
    (heq : ∀ b, ¬L.Area b → d b = c b) : L.Durable d c := by
  refine ⟨valid_of_clear hclear hsize, ?_⟩
  intro b hb
  rw [recovered_of_notHome (by intro i hi; omega)]
  exact heq b hb

/-- Only the contents outside the log area matter. -/
theorem Durable.congr {c' : Nat → β} (hdur : L.Durable d c) (heq : ∀ b, ¬L.Area b → c b = c' b) :
    L.Durable d c' :=
  ⟨hdur.valid, fun b hb => (hdur.recovers b hb).trans (heq b hb)⟩

/-- The disk after a complete recovery. -/
theorem Durable.recovery_done (hdur : L.Durable d c) (hclear : L.count clear = 0) :
    L.pending (applyWrites d (L.recoveryWrites d clear)) = 0 ∧
      L.Durable (applyWrites d (L.recoveryWrites d clear)) c := by
  have hhead : applyWrites d (L.recoveryWrites d clear) L.start = clear := by
    simp [recoveryWrites, applyWrites_append]
  have hpending : L.pending (applyWrites d (L.recoveryWrites d clear)) = 0 := by
    simp [pending, hhead, hclear]
  have hsize := hdur.valid.fits
  refine ⟨hpending, durable_of_clear hpending (by omega) ?_⟩
  intro b hb
  have hne : b ≠ L.start := by
    rintro rfl
    exact hb hdur.valid.area_start
  rw [← hdur.recovers b hb, recoveryWrites, applyWrites_append]
  simp only [applyWrites_cons, applyWrites_nil, update_of_ne hne]
  by_cases hmem : ∃ i < L.pending d, L.homeOf d i = b
  · obtain ⟨i, hi, rfl⟩ := hmem
    rw [hdur.valid.recovered_home hi]
    exact applyWrites_range hdur.valid.distinct hi
  · have hnot : ∀ i < L.pending d, L.homeOf d i ≠ b := fun i hi heq => hmem ⟨i, hi, heq⟩
    rw [recovered_of_notHome hnot]
    apply applyWrites_of_notMem
    intro w hw
    obtain ⟨i, hi, rfl⟩ := List.mem_map.mp hw
    exact hnot i (List.mem_range.mp hi)

/-- A recovery cut short after any of its writes leaves the same contents to
recover. -/
theorem Durable.recovery {ws : List (Nat × β)} (hdur : L.Durable d c)
    (hclear : L.count clear = 0) (hws : ws <+: L.recoveryWrites d clear) :
    L.Durable (applyWrites d ws) c := by
  rcases List.prefix_concat_iff.mp hws with hall | hinstall
  · rw [hall]
    exact (hdur.recovery_done hclear).2
  · -- Only home blocks have been written so far.
    have htarget : ∀ w ∈ ws, ∃ i < L.pending d, L.homeOf d i = w.1 := by
      intro w hw
      obtain ⟨i, hi, rfl⟩ := List.mem_map.mp (hinstall.subset hw)
      exact ⟨i, List.mem_range.mp hi, rfl⟩
    apply hdur.of_homes
    · intro b hb
      apply applyWrites_of_notMem
      intro w hw heq
      obtain ⟨i, hi, hhome⟩ := htarget w hw
      exact hdur.valid.outside i hi (by rw [hhome, heq]; exact hb)
    · intro b hnot
      apply applyWrites_of_notMem
      intro w hw heq
      obtain ⟨i, hi, hhome⟩ := htarget w hw
      exact hnot i hi (hhome.trans heq)

end Recovery

/-! ## Commit -/

section Commit

variable {L} {d c : Nat → β} {n : Nat} {block : Nat → Nat} {header clear : β}

/-- Before its header is written, a commit changes nothing outside the log area. -/
theorem durable_commit_before {ws : List (Nat × β)} (hclear : L.pending d = 0) (hn : n < L.size)
    (hws : ws <+: L.logWrites n block c) :
    L.pending (applyWrites d ws) = 0 ∧ L.Durable (applyWrites d ws) d := by
  have htarget : ∀ w ∈ ws, L.start + 1 ≤ w.1 ∧ w.1 < L.start + L.size := by
    intro w hw
    obtain ⟨i, hi, rfl⟩ := List.mem_map.mp (hws.subset hw)
    have := List.mem_range.mp hi
    constructor <;> simp only <;> omega
  have hhead : applyWrites d ws L.start = d L.start := by
    apply applyWrites_of_notMem
    intro w hw heq
    have := htarget w hw
    omega
  have hpending : L.pending (applyWrites d ws) = 0 := by
    rw [pending, hhead]
    exact hclear
  refine ⟨hpending, durable_of_clear hpending (by omega) ?_⟩
  intro b hb
  apply applyWrites_of_notMem
  rintro w hw rfl
  have := htarget w hw
  exact hb ⟨by omega, by omega⟩

/-- The disk after the header of a commit has been written. -/
theorem durable_header (hn : n < L.size) (hcount : L.count header = n)
    (hhome : ∀ i < n, L.home header i = block i)
    (hdistinct : ∀ i < n, ∀ j < n, block i = block j → i = j)
    (houtside : ∀ i < n, ¬L.Area (block i))
    (hsame : ∀ b, ¬L.Area b → (∀ i < n, block i ≠ b) → c b = d b) :
    L.Durable (applyWrites d (L.commitWrites n block c header)) c ∧
      L.recoveryWrites (applyWrites d (L.commitWrites n block c header)) clear =
        L.installWrites n block c clear := by
  set d₁ := applyWrites d (L.commitWrites n block c header) with hd₁
  have hhead : d₁ L.start = header := by
    simp [hd₁, commitWrites, applyWrites_append]
  have hpending : L.pending d₁ = n := by rw [pending, hhead, hcount]
  have hhomeOf : ∀ i < n, L.homeOf d₁ i = block i := by
    intro i hi
    rw [homeOf, hhead, hhome i hi]
  have hlog : ∀ i < n, d₁ (L.start + 1 + i) = c (block i) := by
    intro i hi
    rw [hd₁, commitWrites, applyWrites_append]
    simp only [applyWrites_cons, applyWrites_nil]
    rw [update_of_ne (by omega)]
    exact applyWrites_range (v := fun i => c (block i)) (fun i _ j _ h => by omega) hi
  have hout : ∀ b, ¬L.Area b → d₁ b = d b := by
    intro b hb
    apply applyWrites_of_notMem
    intro w hw heq
    apply hb
    rcases List.mem_append.mp hw with hw | hw
    · obtain ⟨i, hi, rfl⟩ := List.mem_map.mp hw
      have := List.mem_range.mp hi
      subst heq
      constructor <;> omega
    · simp only [List.mem_singleton] at hw
      subst hw
      subst heq
      constructor <;> simp only <;> omega
  have hvalid : L.Valid d₁ := by
    constructor
    · rw [hpending]
      exact hn
    · intro i hi j hj heq
      rw [hpending] at hi hj
      rw [hhomeOf i hi, hhomeOf j hj] at heq
      exact hdistinct i hi j hj heq
    · intro i hi
      rw [hpending] at hi
      rw [hhomeOf i hi]
      exact houtside i hi
  refine ⟨⟨hvalid, ?_⟩, ?_⟩
  · intro b hb
    by_cases hmem : ∃ i < n, block i = b
    · obtain ⟨i, hi, rfl⟩ := hmem
      rw [← hhomeOf i hi, hvalid.recovered_home (by rw [hpending]; exact hi), hlog i hi,
        hhomeOf i hi]
    · have hnot : ∀ i < n, block i ≠ b := fun i hi heq => hmem ⟨i, hi, heq⟩
      rw [recovered_of_notHome, hout b hb, hsame b hb hnot]
      intro i hi
      rw [hpending] at hi
      rw [hhomeOf i hi]
      exact hnot i hi
  · rw [recoveryWrites, installWrites, hpending]
    congr 1
    apply List.map_congr_left
    intro i hi
    have hi := List.mem_range.mp hi
    rw [hhomeOf i hi, hlog i hi]

/-- A commit takes effect with its header: a prefix of its writes that stops
before the header leaves the old contents, every longer prefix the new ones. -/
theorem durable_commit {ws : List (Nat × β)} (hempty : L.pending d = 0) (hn : n < L.size)
    (hcount : L.count header = n) (hhome : ∀ i < n, L.home header i = block i)
    (hdistinct : ∀ i < n, ∀ j < n, block i = block j → i = j)
    (houtside : ∀ i < n, ¬L.Area (block i))
    (hsame : ∀ b, ¬L.Area b → (∀ i < n, block i ≠ b) → c b = d b) (hclear : L.count clear = 0)
    (hws : ws <+: L.commitWrites n block c header ++ L.installWrites n block c clear) :
    (ws.length ≤ n ∧ L.Durable (applyWrites d ws) d) ∨
      (n < ws.length ∧ L.Durable (applyWrites d ws) c) := by
  have hlen : (L.commitWrites n block c header).length = n + 1 := by
    simp [commitWrites, logWrites]
  obtain ⟨hdur, hinstall⟩ := durable_header hn hcount hhome hdistinct houtside
    hsame
  rcases prefix_append_cases hws with hhead | ⟨ws', rfl, hws'⟩
  · rcases List.prefix_concat_iff.mp hhead with rfl | hlog
    · exact Or.inr ⟨by rw [← commitWrites, hlen]; omega, hdur⟩
    · have hle := hlog.length_le
      simp only [logWrites, List.length_map, List.length_range] at hle
      exact Or.inl ⟨hle, (durable_commit_before hempty hn hlog).2⟩
  · refine Or.inr ⟨by rw [List.length_append, hlen]; omega, ?_⟩
    rw [applyWrites_append]
    exact hdur.recovery hclear (by rw [hinstall]; exact hws')

/-- The header is clear again after a commit. -/
theorem pending_commit (hclear : L.count clear = 0) :
    L.pending (applyWrites d (L.commitWrites n block c header ++ L.installWrites n block c clear)) =
      0 := by
  simp [pending, installWrites, applyWrites_append, hclear]

end Commit

end RedoLog

end Lib
end Xv6
