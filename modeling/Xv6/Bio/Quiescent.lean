import Mathlib.Tactic
import Xv6.Bio.Coherence
import Xv6.Bio.Sequential

/-!
# The cache between operations

When no call is in progress, the coherent cache of many processes is a view for
a single process, and the view of a single process that has dropped all its
references is a coherent cache again.

Main results:

- Theorem {lit}`Inv.repr`: a quiescent cache represents the contents of all
  blocks, with the pins as references.
- Theorem {lit}`inv_of_repr`: a view without references or unwritten blocks is a
  coherent cache.
-/

namespace Xv6
namespace Bio

variable {P α : Type}

/-- No call of any process is in progress. -/
structure Quiescent (s : Sys P α) : Prop where
  waiting : ∀ b, s.waiting b = []
  leaving : ∀ b, s.leaving b = []
  lock : ∀ b, (s.bc.buf b).lock = none

theorem Quiescent.users {s : Sys P α} (hquiet : Quiescent s) (b : Nat) : s.users b = 0 := by
  simp [Sys.users, hquiet.waiting, hquiet.leaving, hquiet.lock]

/-- The pins are exactly one for each block of `logged`. -/
structure PinnedExactly (dev : Nat) (s : Sys P α) (logged : Finset Nat) : Prop where
  pins : ∀ b < nbuf, s.pins b = if (s.bc.buf b).dev = dev ∧ (s.bc.buf b).blockno ∈ logged
    then 1 else 0
  cached : ∀ n ∈ logged, ∃ b, Tagged s.bc dev b n

/-- The contents of all blocks as a view. -/
def Sys.view (s : Sys P α) (dev : Nat) (logged : Finset Nat) : View α where
  data := s.content dev
  disk := s.bc.disk
  refs := fun n => if n ∈ logged then 1 else 0
  held := fun _ => false
  issued := s.bc.issued

section Bridge

variable {dev : Nat} {s : Sys P α} {logged : Finset Nat}

/-- A block without a valid buffer is as on disk. -/
theorem Inv.content_of_invalid (hinv : Inv dev s) {n : Nat}
    (hinvalid : ∀ b, Tagged s.bc dev b n → (s.bc.buf b).valid = false) :
    s.content dev n = s.bc.disk n := by
  apply hinv.uncached
  intro b hb hvalid hblock
  rcases (hinv.bufInv b hb).dev_eq with ⟨-, hbad, -⟩ | hbdev
  · simp [hvalid] at hbad
  · have := hinvalid b ⟨hb, hbdev, hblock⟩
    simp [hvalid] at this

/-- A quiescent cache as the view of a single process. -/
theorem Inv.repr (hinv : Inv dev s) (hdev : dev ≠ 0) (hquiet : Quiescent s)
    (hpins : PinnedExactly dev s logged) (p : P) :
    Repr p dev s.bc (s.view dev logged) := by
  have hcount : ∀ b < nbuf, (s.bc.buf b).refcnt = s.pins b := by
    intro b hb
    rw [(hinv.bufInv b hb).count, hquiet.users, Nat.zero_add]
  have huniq : ∀ b b' n, Tagged s.bc dev b n → Tagged s.bc dev b' n → b = b' := by
    rintro b b' n ⟨hb, hbdev, hbn⟩ ⟨hb', hbdev', hbn'⟩
    exact hinv.uniq b hb b' hb' (by rw [hbdev]; exact hdev) (by rw [hbdev, hbdev'])
      (by rw [hbn, hbn'])
  constructor
  · exact hinv.linked
  · rfl
  · rfl
  · intro b hb
    rcases (hinv.bufInv b hb).dev_eq with ⟨hzero, hinvalid, -⟩ | hbdev
    · refine Or.inr ⟨hzero, hinvalid, ?_, hquiet.lock b⟩
      rw [hcount b hb, hpins.pins b hb, if_neg]
      rintro ⟨hbdev, -⟩
      exact hdev (hbdev.symm.trans hzero)
    · exact Or.inl hbdev
  · intro b _
    exact hquiet.lock b
  · exact huniq
  · rintro b n ⟨hb, hbdev, rfl⟩
    constructor
    · rw [hcount b hb, hpins.pins b hb]
      simp [Sys.view, hbdev]
    · simp [Sys.view, hquiet.lock b]
    · intro hvalid
      exact (hinv.bufInv b hb).cached hvalid
    · intro hinvalid
      refine ⟨rfl, hinv.content_of_invalid ?_⟩
      intro b' htag
      rw [huniq b' b _ htag ⟨hb, hbdev, rfl⟩]
      exact hinvalid
  · intro n hnone
    refine ⟨?_, rfl, hinv.content_of_invalid fun b htag => (hnone b htag).elim⟩
    simp only [Sys.view]
    rw [if_neg]
    intro hmem
    obtain ⟨b, htag⟩ := hpins.cached n hmem
    exact hnone b htag

/-- A block that is not pinned is as on disk. -/
theorem Inv.content_of_unpinned (hinv : Inv dev s) (hquiet : Quiescent s)
    (hpins : PinnedExactly dev s logged) {n : Nat} (hn : n ∉ logged) :
    s.content dev n = s.bc.disk n := by
  by_cases hvalid : ∃ b, Tagged s.bc dev b n ∧ (s.bc.buf b).valid = true
  · obtain ⟨b, ⟨hb, hbdev, rfl⟩, hvalid⟩ := hvalid
    rw [← (hinv.bufInv b hb).cached hvalid]
    rcases (hinv.bufInv b hb).clean hvalid with hclean | hpin | hlock
    · exact hclean
    · rw [hpins.pins b hb, if_neg (fun h => hn h.2)] at hpin
      omega
    · exact (hlock (hquiet.lock b)).elim
  · apply hinv.content_of_invalid
    intro b htag
    by_contra hne
    exact hvalid ⟨b, htag, by simpa using hne⟩

theorem Inv.view_safe (hinv : Inv dev s) (hquiet : Quiescent s)
    (hpins : PinnedExactly dev s logged) : (s.view dev logged).Safe := by
  intro n hn
  refine ⟨rfl, hinv.content_of_unpinned hquiet hpins ?_⟩
  intro hmem
  simp [Sys.view, hmem] at hn

theorem Sys.view_idle (s : Sys P α) (dev : Nat) (logged : Finset Nat) :
    (s.view dev logged).Idle := by
  intro n
  refine ⟨rfl, ?_⟩
  simp only [Sys.view]
  split <;> decide

/-- A view without references and unwritten blocks as a coherent cache. -/
theorem inv_of_repr {p : P} {v : View α} {s : Sys P α} (hrepr : Repr p dev s.bc v)
    (hdata : v.data = v.disk) (hrefs : ∀ n, v.refs n = 0)
    (hheld : ∀ n, v.held n = false) (hwaiting : ∀ b, s.waiting b = [])
    (hleaving : ∀ b, s.leaving b = []) (hpins : ∀ b, s.pins b = 0)
    (hleft : ∀ d n, s.left d n = none) : Inv dev s := by
  have hcontent : ∀ n, s.content dev n = s.bc.disk n := by
    intro n
    simp [Sys.content, hleft]
  have hlock : ∀ b, (s.bc.buf b).lock = none := by
    intro b
    by_cases hb : b < nbuf
    · rcases hrepr.spare b hb with hbdev | ⟨-, -, -, hlock⟩
      · simpa [hheld] using (hrepr.cached b _ ⟨hb, hbdev, rfl⟩).lock
      · exact hlock
    · exact hrepr.outside b (by omega)
  have husers : ∀ b, s.users b = 0 := by
    intro b
    simp [Sys.users, hwaiting, hleaving, hlock]
  have hclean : ∀ b < nbuf, (s.bc.buf b).valid = true → s.Clean b := by
    intro b hb hvalid
    rcases hrepr.spare b hb with hbdev | ⟨-, hinvalid, -⟩
    · have := (hrepr.cached b _ ⟨hb, hbdev, rfl⟩).data hvalid
      rw [Sys.Clean, this, hdata, hrepr.disk]
    · simp [hvalid] at hinvalid
  constructor
  · exact hrepr.linked
  · intro b hb
    constructor
    · rw [husers, hpins]
      rcases hrepr.spare b hb with hbdev | ⟨-, -, hzero, -⟩
      · rw [(hrepr.cached b _ ⟨hb, hbdev, rfl⟩).refcnt, hrefs]
      · exact hzero
    · rw [husers, hpins]
      decide
    · rcases hrepr.spare b hb with hbdev | ⟨hzero, hinvalid, -, -⟩
      · exact Or.inr hbdev
      · exact Or.inl ⟨hzero, hinvalid, husers b⟩
    · intro hlocked
      exact (hlocked (hlock b)).elim
    · intro hvalid
      rw [hcontent]
      exact hclean b hb hvalid
    · intro hvalid
      exact Or.inl (hclean b hb hvalid)
  · intro b _
    exact husers b
  · intro b hb b' hb' hne hsame hblock
    have htag : ∀ c < nbuf, (s.bc.buf c).dev ≠ 0 → (s.bc.buf c).dev = dev := by
      intro c hc hcne
      rcases hrepr.spare c hc with hcdev | ⟨hzero, -⟩
      · exact hcdev
      · exact (hcne hzero).elim
    exact hrepr.uniq b b' _ ⟨hb, htag b hb hne, rfl⟩
      ⟨hb', htag b' hb' (hsame ▸ hne), hblock.symm⟩
  · intro n _
    exact hcontent n

end Bridge

end Bio
end Xv6
