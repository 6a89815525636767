import Mathlib.Tactic
import Xv6.Bio.Cache
import Xv6.Lib.Run

/-!
# Buffer cache coherence

Any number of processes call `bread`, `bwrite`, `brelse`, `bpin` and `bunpin`,
and their calls interleave at every point where no lock is held.  A state of
this system is the cache together with the place each call has reached, the
number of pins, a record of what the last modification left in each block, and
a mark on every buffer that has been modified since it was last read or written.

Main results:

- Theorem {lit}`inv_step`: every step that follows the callers' discipline keeps
  the cache invariant.
- Theorem {lit}`cache_coherent`: along every disciplined interleaving the list
  is intact, no block is cached twice, reference counts are exact, and `bread`
  returns what the last holder left.
- Theorem {lit}`marked_step`: a buffer without a mark holds what the disk holds,
  since `bwrite` and the read of `bread` are what takes a mark away.
- Theorem {lit}`cache_incoherent`: without any one of the further rules, on the
  last unpin, on the device and on the number of references, coherence is lost.
-/

namespace Xv6
namespace Bio

open Lib Function

variable {P α : Type}

/-! ## Interleaved calls -/

/-- The cache shared by all processes.  `waiting b` lists the calls of `bread`
that are blocked in `acquiresleep`, `leaving b` the calls of `brelse` that have
released the lock but not yet their reference, and `ready b` tells whether the
`bread` of the current holder has returned.  `left` records the data that the
last modification left in a block of a device, and `dirty b` that the buffer has
been modified since it was last read from the disk or written to it. -/
structure Sys (P α : Type) where
  bc : Bcache P α
  waiting : Nat → List P
  ready : Nat → Bool
  leaving : Nat → List P
  pins : Nat → Nat
  left : Nat → Nat → Option α
  dirty : Nat → Bool

/-- The atomic sections of the cache's interface. -/
inductive Act (P α : Type) where
  | bget (p : P) (dev blockno : Nat)
  | acquiresleep (p : P) (b : Nat)
  | fill (p : P) (b : Nat)
  | modify (p : P) (b : Nat) (data : α)
  | bwrite (p : P) (b : Nat)
  | brelse (p : P) (b : Nat)
  | drop (p : P) (b : Nat)
  | bpin (b : Nat)
  | bunpin (b : Nat)

/-- The system right after `binit`, over a given disk. -/
def Sys.init (disk : Nat → α) (zero : α) : Sys P α where
  bc := binit disk zero
  waiting := fun _ => []
  ready := fun _ => false
  leaving := fun _ => []
  pins := fun _ => 0
  left := fun _ _ => none
  dirty := fun _ => false

/-- One atomic section of one call.  There is no step where the code panics,
where the process is not at this point of a call, or where it has to sleep. -/
def step [DecidableEq P] (s : Sys P α) : Act P α → Option (Sys P α)
  | .bget p dev blockno =>
    match bget s.bc dev blockno with
    | .ok (b, bc) =>
      some { s with bc := bc, waiting := update s.waiting b (p :: s.waiting b) }
    | .error _ => none
  | .acquiresleep p b =>
    if p ∈ s.waiting b then
      match acquiresleep s.bc p b with
      | some bc => some { s with
          bc := bc
          waiting := update s.waiting b ((s.waiting b).erase p)
          ready := update s.ready b false }
      | none => none
    else none
  | .fill p b =>
    if (s.bc.buf b).lock = some p ∧ s.ready b = false then
      some { s with
        bc := breadFill s.bc b
        ready := update s.ready b true
        -- Only a buffer that is not valid is read from the disk.
        dirty := update s.dirty b ((s.bc.buf b).valid && s.dirty b) }
    else none
  | .modify p b data =>
    if (s.bc.buf b).lock = some p ∧ s.ready b = true then
      let x := s.bc.buf b
      some { s with
        bc := modify s.bc b data
        left := update s.left x.dev
          (update (s.left x.dev) x.blockno (some data))
        dirty := update s.dirty b true }
    else none
  | .bwrite p b =>
    if s.ready b = true then
      match bwrite s.bc p b with
      | .ok bc => some { s with bc := bc, dirty := update s.dirty b false }
      | .error _ => none
    else none
  | .brelse p b =>
    if s.ready b = true then
      match brelseUnlock s.bc p b with
      | .ok bc => some { s with
          bc := bc, leaving := update s.leaving b (p :: s.leaving b) }
      | .error _ => none
    else none
  | .drop p b =>
    if p ∈ s.leaving b then
      some { s with
        bc := brelseDrop s.bc b
        leaving := update s.leaving b ((s.leaving b).erase p) }
    else none
  | .bpin b =>
    if b < nbuf then
      some { s with bc := bpin s.bc b, pins := update s.pins b (s.pins b + 1) }
    else none
  | .bunpin b =>
    if b < nbuf then
      some { s with bc := bunpin s.bc b, pins := update s.pins b (s.pins b - 1) }
    else none

/-- Calls that hold or wait for a buffer: they have entered `bread` and have not
returned from the matching `brelse`. -/
def Sys.users (s : Sys P α) (b : Nat) : Nat :=
  (s.waiting b).length + (s.leaving b).length + (s.bc.buf b).lock.toList.length

/-- What a block of device `dev` holds: the data its last modification left, or
else the disk contents. -/
def Sys.content (s : Sys P α) (dev blockno : Nat) : α :=
  (s.left dev blockno).getD (s.bc.disk blockno)

/-! ## Discipline -/

/-- The rules on callers: a buffer that has been modified is written or pinned
before any `brelse` of it, and every `bunpin` matches a `bpin`. -/
def Disciplined (s : Sys P α) : Act P α → Prop
  | .brelse _ b => s.dirty b = false ∨ 0 < s.pins b
  | .bunpin b => 0 < s.pins b
  | _ => True

/-- All calls of `bread` name one device. -/
def OneDevice (dev : Nat) : Act P α → Prop
  | .bget _ dev' _ => dev' = dev
  | _ => True

/-- The last pin of a modified buffer that nobody has locked is dropped only
after the buffer has been written. -/
def UnpinWritten (s : Sys P α) : Act P α → Prop
  | .bunpin b => 1 < s.pins b ∨ (s.bc.buf b).lock ≠ none ∨ s.dirty b = false
  | _ => True

/-- The references to one buffer stay below `2 ^ 32`. -/
def Bounded (s : Sys P α) : Act P α → Prop
  | .bget _ _ _ => ∀ b < nbuf, s.users b + s.pins b + 1 < 2 ^ 32
  | .bpin b => s.users b + s.pins b + 1 < 2 ^ 32
  | _ => True

/-- Whether a call keeps to the discipline can be evaluated. -/
instance (s : Sys P α) : DecidablePred (Disciplined s)
  | .brelse _ b => inferInstanceAs (Decidable (s.dirty b = false ∨ 0 < s.pins b))
  | .bunpin b => inferInstanceAs (Decidable (0 < s.pins b))
  | .bget _ _ _ | .acquiresleep _ _ | .fill _ _ | .modify _ _ _ | .bwrite _ _ | .drop _ _
  | .bpin _ => isTrue trivial

/-- Whether a call names the device can be evaluated. -/
instance (dev : Nat) : DecidablePred (OneDevice dev : Act P α → Prop)
  | .bget _ dev' _ => inferInstanceAs (Decidable (dev' = dev))
  | .brelse _ _ | .acquiresleep _ _ | .fill _ _ | .modify _ _ _ | .bwrite _ _ | .drop _ _
  | .bpin _ | .bunpin _ => isTrue trivial

/-- Whether an unpin comes after the write can be evaluated. -/
instance [DecidableEq P] (s : Sys P α) : DecidablePred (UnpinWritten s)
  | .bunpin b => inferInstanceAs (Decidable
      (1 < s.pins b ∨ (s.bc.buf b).lock ≠ none ∨ s.dirty b = false))
  | .bget _ _ _ | .brelse _ _ | .acquiresleep _ _ | .fill _ _ | .modify _ _ _ | .bwrite _ _
  | .drop _ _ | .bpin _ => isTrue trivial

/-- Whether the references stay below the bound can be evaluated. -/
instance (s : Sys P α) : DecidablePred (Bounded s)
  | .bget _ _ _ => inferInstanceAs (Decidable (∀ b < nbuf, s.users b + s.pins b + 1 < 2 ^ 32))
  | .bpin b => inferInstanceAs (Decidable (s.users b + s.pins b + 1 < 2 ^ 32))
  | .bunpin _ | .brelse _ _ | .acquiresleep _ _ | .fill _ _ | .modify _ _ _ | .bwrite _ _
  | .drop _ _ => isTrue trivial

/-- What the cache promises its callers in one state. -/
structure Coherent [DecidableEq P] (s : Sys P α) : Prop where
  list : ∃ l : List Nat, l.Nodup ∧ (∀ b, b ∈ l ↔ b < nbuf) ∧
    Path s.bc.next bhead l bhead ∧ Path s.bc.prev bhead l.reverse bhead
  uniq : ∀ b < nbuf, ∀ b' < nbuf, (s.bc.buf b).dev ≠ 0 → (s.bc.buf b).dev = (s.bc.buf b').dev →
    (s.bc.buf b).blockno = (s.bc.buf b').blockno → b = b'
  count : ∀ b < nbuf, (s.bc.buf b).refcnt = s.users b + s.pins b
  keeps : ∀ a s', step s a = some s' → ∀ b < nbuf, 0 < (s.bc.buf b).refcnt →
    (s'.bc.buf b).dev = (s.bc.buf b).dev ∧ (s'.bc.buf b).blockno = (s.bc.buf b).blockno
  data : ∀ p b, (s.bc.buf b).lock = some p → s.ready b = true →
    (s.bc.buf b).data = s.content (s.bc.buf b).dev (s.bc.buf b).blockno

/-! ## The invariant -/

/-- The buffer holds what the disk holds. -/
def Sys.Clean (s : Sys P α) (b : Nat) : Prop :=
  (s.bc.buf b).data = s.bc.disk (s.bc.buf b).blockno

/-- What the rules come to for the data: a buffer that is about to lose its last
protection holds what the disk holds. -/
def Saved (s : Sys P α) : Act P α → Prop
  | .brelse _ b => s.Clean b ∨ 0 < s.pins b
  | .bunpin b => 0 < s.pins b ∧ ((s.bc.buf b).valid = true →
    1 < s.pins b ∨ (s.bc.buf b).lock ≠ none ∨ s.Clean b)
  | _ => True

/-- A buffer without a mark holds what the disk holds. -/
def Marked (s : Sys P α) : Prop :=
  ∀ b < nbuf, (s.bc.buf b).valid = true → s.dirty b = false → s.Clean b

/-- What holds of one buffer while the cache serves device `dev`. -/
structure BufInv (dev : Nat) (s : Sys P α) (b : Nat) : Prop where
  count : (s.bc.buf b).refcnt = s.users b + s.pins b
  bound : s.users b + s.pins b < 2 ^ 32
  dev_eq : ((s.bc.buf b).dev = 0 ∧ (s.bc.buf b).valid = false ∧ s.users b = 0) ∨
    (s.bc.buf b).dev = dev
  ready : (s.bc.buf b).lock ≠ none → s.ready b = true → (s.bc.buf b).valid = true
  cached : (s.bc.buf b).valid = true →
    (s.bc.buf b).data = s.content dev (s.bc.buf b).blockno
  clean : (s.bc.buf b).valid = true → s.Clean b ∨ 0 < s.pins b ∨ (s.bc.buf b).lock ≠ none

/-- The invariant of the whole system. -/
structure Inv (dev : Nat) (s : Sys P α) : Prop where
  linked : ∃ l, Linked s.bc l
  bufInv : ∀ b < nbuf, BufInv dev s b
  outside : ∀ b, nbuf ≤ b → s.users b = 0
  uniq : ∀ b < nbuf, ∀ b' < nbuf, (s.bc.buf b).dev ≠ 0 → (s.bc.buf b).dev = (s.bc.buf b').dev →
    (s.bc.buf b).blockno = (s.bc.buf b').blockno → b = b'
  uncached : ∀ blockno, (∀ b < nbuf, (s.bc.buf b).valid = true →
    (s.bc.buf b).blockno ≠ blockno) → s.content dev blockno = s.bc.disk blockno

/-! ## What the steps do -/

section Inversion

variable [DecidableEq P] {s s' : Sys P α} {p : P} {b : Nat}

/-- What `acquiresleep` does when it returns. -/
theorem step_acquiresleep (hstep : step s (.acquiresleep p b) = some s') :
    p ∈ s.waiting b ∧ (s.bc.buf b).lock = none ∧
      s' = { s with
        bc := s.bc.setBuf b { s.bc.buf b with lock := some p }
        waiting := update s.waiting b ((s.waiting b).erase p)
        ready := update s.ready b false } := by
  simp only [step, acquiresleep] at hstep
  cases hlock : (s.bc.buf b).lock with
  | none =>
    simp only [hlock] at hstep
    split at hstep
    next hmem =>
      exact ⟨hmem, rfl, (Option.some.inj hstep).symm⟩
    · cases hstep
  | some q => simp [hlock] at hstep

/-- What `bwrite` does: its caller holds the buffer. -/
theorem step_bwrite (hstep : step s (.bwrite p b) = some s') :
    (s.bc.buf b).lock = some p ∧ s.ready b = true ∧
      s' = { s with
        bc := virtioDiskRw s.bc b true
        dirty := update s.dirty b false } := by
  simp only [step, bwrite] at hstep
  by_cases hlock : (s.bc.buf b).lock = some p <;> by_cases hready : s.ready b = true <;>
    simp only [hlock, hready, if_true, if_false, reduceCtorEq] at hstep
  exact ⟨hlock, hready, (Option.some.inj hstep).symm⟩

/-- What `brelse` does first: its caller holds the buffer and unlocks it. -/
theorem step_brelse (hstep : step s (.brelse p b) = some s') :
    (s.bc.buf b).lock = some p ∧ s.ready b = true ∧
      s' = { s with
        bc := s.bc.setBuf b { s.bc.buf b with lock := none }
        leaving := update s.leaving b (p :: s.leaving b) } := by
  simp only [step, brelseUnlock] at hstep
  by_cases hlock : (s.bc.buf b).lock = some p <;> by_cases hready : s.ready b = true <;>
    simp only [hlock, hready, if_true, if_false, reduceCtorEq] at hstep
  exact ⟨hlock, hready, (Option.some.inj hstep).symm⟩

end Inversion

/-! ## Frame lemmas -/

/-- A buffer's invariant survives changes that leave the buffer, its users and
the contents of its block alone. -/
theorem BufInv.frame {dev b : Nat} {s s' : Sys P α} (hinv : BufInv dev s b)
    (hbuf : s'.bc.buf b = s.bc.buf b) (hwaiting : s'.waiting b = s.waiting b)
    (hready : s'.ready b = s.ready b) (hleaving : s'.leaving b = s.leaving b)
    (hpins : s'.pins b = s.pins b)
    (hcontent : (s.bc.buf b).valid = true →
      s'.content dev (s.bc.buf b).blockno = s.content dev (s.bc.buf b).blockno)
    (hdisk : (s.bc.buf b).valid = true →
      s'.bc.disk (s.bc.buf b).blockno = s.bc.disk (s.bc.buf b).blockno) :
    BufInv dev s' b := by
  have husers : s'.users b = s.users b := by
    simp [Sys.users, hbuf, hwaiting, hleaving]
  constructor
  · rw [hbuf, husers, hpins]
    exact hinv.count
  · rw [husers, hpins]
    exact hinv.bound
  · rw [hbuf, husers]
    exact hinv.dev_eq
  · rw [hbuf, hready]
    exact hinv.ready
  · intro hvalid
    rw [hbuf] at hvalid ⊢
    rw [hcontent hvalid]
    exact hinv.cached hvalid
  · intro hvalid
    rw [hbuf] at hvalid
    rw [Sys.Clean, hbuf, hdisk hvalid, hpins]
    exact hinv.clean hvalid

/-- A step that rewrites one buffer without a new block or new data, and leaves
the disk and the marks alone, keeps the marks right. -/
theorem Marked.setBuf {b : Nat} {s s' : Sys P α} {x : Buf P α} (hmarked : Marked s)
    (hbuf : s'.bc.buf = (s.bc.setBuf b x).buf) (hdisk : s'.bc.disk = s.bc.disk)
    (hdirty : s'.dirty = s.dirty) (hx : x.valid = true → (s.bc.buf b).valid = true ∧
      x.data = (s.bc.buf b).data ∧ x.blockno = (s.bc.buf b).blockno) : Marked s' := by
  intro b' hb' hvalid hclean
  rw [hdirty] at hclean
  rw [Sys.Clean, hbuf, hdisk]
  rw [hbuf] at hvalid
  obtain rfl | hne := eq_or_ne b' b
  · rw [setBuf_self] at hvalid ⊢
    obtain ⟨hvalid', hdata, hblockno⟩ := hx hvalid
    rw [hdata, hblockno]
    exact hmarked b' hb' hvalid' hclean
  · rw [setBuf_of_ne _ _ _ hne] at hvalid ⊢
    exact hmarked b' hb' hvalid hclean

/-- Rewriting a buffer with the same block changes no buffer's block. -/
theorem setBuf_tag {t : Bcache P α} {b : Nat} {x : Buf P α} (hdev : x.dev = (t.buf b).dev)
    (hblockno : x.blockno = (t.buf b).blockno) (b' : Nat) :
    ((t.setBuf b x).buf b').dev = (t.buf b').dev ∧
      ((t.setBuf b x).buf b').blockno = (t.buf b').blockno := by
  obtain rfl | hne := eq_or_ne b' b
  · simp [hdev, hblockno]
  · simp [hne]

/-- The read of `bread` changes no buffer's block. -/
theorem breadFill_tag (bc : Bcache P α) (b b' : Nat) :
    ((breadFill bc b).buf b').dev = (bc.buf b').dev ∧
      ((breadFill bc b).buf b').blockno = (bc.buf b').blockno := by
  unfold breadFill
  split
  · exact ⟨rfl, rfl⟩
  · obtain rfl | hne := eq_or_ne b' b
    · simp [virtioDiskRw]
    · simp [virtioDiskRw, hne]

/-- A step that changes one buffer's count, lock, pins or users, but neither its
block nor its data nor the disk, keeps the invariant if the count stays exact
and the buffer stays protected while its data is not on disk. -/
theorem Inv.of_local {dev b : Nat} {s s' : Sys P α} (hinv : Inv dev s) (hb : b < nbuf)
    (hlinked : ∃ l, Linked s'.bc l)
    (hother : ∀ b' ≠ b, s'.bc.buf b' = s.bc.buf b' ∧ s'.waiting b' = s.waiting b' ∧
      s'.ready b' = s.ready b' ∧ s'.leaving b' = s.leaving b' ∧ s'.pins b' = s.pins b')
    (hself : ∃ lock refcnt, s'.bc.buf b = { s.bc.buf b with lock := lock, refcnt := refcnt })
    (hdisk : s'.bc.disk = s.bc.disk) (hleft : s'.left = s.left)
    (hcount : (s'.bc.buf b).refcnt = s'.users b + s'.pins b ∧ s'.users b + s'.pins b < 2 ^ 32)
    (hused : 0 < s'.users b → (s.bc.buf b).dev = dev)
    (hready : (s'.bc.buf b).lock ≠ none → s'.ready b = true → (s.bc.buf b).valid = true)
    (hclean : (s.bc.buf b).valid = true →
      s.Clean b ∨ 0 < s'.pins b ∨ (s'.bc.buf b).lock ≠ none) : Inv dev s' := by
  obtain ⟨lock, refcnt, hself⟩ := hself
  have hcontent : s'.content = s.content := by
    funext d n
    simp [Sys.content, hdisk, hleft]
  have htag : ∀ b', (s'.bc.buf b').dev = (s.bc.buf b').dev ∧
      (s'.bc.buf b').blockno = (s.bc.buf b').blockno ∧
      (s'.bc.buf b').valid = (s.bc.buf b').valid := by
    intro b'
    obtain rfl | hne := eq_or_ne b' b
    · simp [hself]
    · simp [(hother b' hne).1]
  have hold := hinv.bufInv b hb
  have hbufInv : BufInv dev s' b := by
    refine ⟨hcount.1, hcount.2, ?_, ?_, ?_, ?_⟩
    · rcases hold.dev_eq with ⟨hdev, hinvalid, -⟩ | hdev
      · rcases Nat.eq_zero_or_pos (s'.users b) with hzero | hpos
        · exact Or.inl ⟨by rw [(htag b).1, hdev], by rw [(htag b).2.2, hinvalid], hzero⟩
        · exact Or.inr (by rw [(htag b).1, hused hpos])
      · exact Or.inr (by rw [(htag b).1, hdev])
    · rw [(htag b).2.2]
      exact hready
    · rw [hcontent, hself]
      exact hold.cached
    · rw [(htag b).2.2, Sys.Clean, hdisk, hself]
      rw [hself] at hclean
      exact hclean
  refine ⟨hlinked, ?_, ?_, ?_, ?_⟩
  · intro b' hb'
    obtain rfl | hne := eq_or_ne b' b
    · exact hbufInv
    · obtain ⟨h₁, h₂, h₃, h₄, h₅⟩ := hother b' hne
      exact (hinv.bufInv b' hb').frame h₁ h₂ h₃ h₄ h₅ (by simp [hcontent]) (by simp [hdisk])
  · intro b' hb'
    obtain ⟨h₁, h₂, -, h₄, -⟩ := hother b' (by omega)
    simpa [Sys.users, h₁, h₂, h₄] using hinv.outside b' hb'
  · simpa only [htag] using hinv.uniq
  · simpa only [htag, hcontent, hdisk] using hinv.uncached

/-! ## Every step keeps the invariant -/

/-- The freshly initialized cache satisfies the invariant. -/
theorem inv_init (dev : Nat) (disk : Nat → α) (zero : α) :
    Inv dev (Sys.init disk zero : Sys P α) := by
  have husers : ∀ b, (Sys.init disk zero : Sys P α).users b = 0 := by
    intro b
    simp [Sys.users, Sys.init]
  constructor
  · exact ⟨_, ring_binit disk zero⟩
  · intro b _
    constructor
    · rw [husers]
      simp [Sys.init]
    · rw [husers]
      simp [Sys.init]
    · exact Or.inl ⟨by simp [Sys.init], by simp [Sys.init], husers b⟩
    · simp [Sys.init]
    · simp [Sys.init]
    · simp [Sys.init]
  · exact fun b _ => husers b
  · simp [Sys.init]
  · simp [Sys.init, Sys.content]

/-- A buffer that somebody uses carries a block of the device. -/
theorem Inv.dev_of_users {dev b : Nat} {s : Sys P α} (hinv : Inv dev s)
    (husers : 0 < s.users b) : b < nbuf ∧ (s.bc.buf b).dev = dev := by
  have hb : b < nbuf := by
    by_contra hge
    have := hinv.outside b (by omega)
    omega
  refine ⟨hb, ?_⟩
  rcases (hinv.bufInv b hb).dev_eq with ⟨-, -, hzero⟩ | hdev
  · omega
  · exact hdev

/-- Two valid buffers never carry the same block. -/
theorem Inv.valid_ne {dev b b' : Nat} {s : Sys P α} (hinv : Inv dev s) (hdev : dev ≠ 0)
    (hb : b < nbuf) (hb' : b' < nbuf) (hbdev : (s.bc.buf b).dev = dev)
    (hvalid : (s.bc.buf b').valid = true) (hne : b' ≠ b) :
    (s.bc.buf b').blockno ≠ (s.bc.buf b).blockno := by
  intro heq
  have hbdev' : (s.bc.buf b').dev = dev := by
    rcases (hinv.bufInv b' hb').dev_eq with ⟨-, hinvalid, -⟩ | h
    · simp [hvalid] at hinvalid
    · exact h
  exact hne (hinv.uniq b' hb' b hb (by rw [hbdev']; exact hdev) (by rw [hbdev, hbdev']) heq)

private theorem users_pos_of_lock {s : Sys P α} {b : Nat} {p : P}
    (hlock : (s.bc.buf b).lock = some p) : 0 < s.users b := by
  simp [Sys.users, hlock]

/-- A step on a locked buffer that leaves it valid, with the contents of its
block as its data, keeps the invariant if no other block changes. -/
theorem Inv.of_held {dev b : Nat} {s s' : Sys P α} {p : P} (hinv : Inv dev s) (data : α)
    (hdev : dev ≠ 0) (hlock : (s.bc.buf b).lock = some p) (hlinked : ∃ l, Linked s'.bc l)
    (hbuf : s'.bc.buf = (s.bc.setBuf b { s.bc.buf b with valid := true, data := data }).buf)
    (hsame : s'.waiting = s.waiting ∧ s'.leaving = s.leaving ∧ s'.pins = s.pins)
    (hready : ∀ b' ≠ b, s'.ready b' = s.ready b')
    (hdata : data = s'.content dev (s.bc.buf b).blockno)
    (hcontent : ∀ n ≠ (s.bc.buf b).blockno, s'.content dev n = s.content dev n)
    (hdisk : ∀ n ≠ (s.bc.buf b).blockno, s'.bc.disk n = s.bc.disk n) : Inv dev s' := by
  obtain ⟨hwaiting, hleaving, hpins⟩ := hsame
  obtain ⟨hb, hbdev⟩ := hinv.dev_of_users (users_pos_of_lock hlock)
  have hold := hinv.bufInv b hb
  have htag := setBuf_tag (t := s.bc) (b := b)
    (x := { s.bc.buf b with valid := true, data := data }) rfl rfl
  have husers : ∀ b', s'.users b' = s.users b' := by
    intro b'
    obtain rfl | hne := eq_or_ne b' b
    · simp [Sys.users, hwaiting, hleaving, hbuf]
    · simp [Sys.users, hwaiting, hleaving, hbuf, hne]
  refine ⟨hlinked, ?_, ?_, ?_, ?_⟩
  · intro b' hb'
    obtain rfl | hne := eq_or_ne b' b
    · refine ⟨?_, ?_, ?_, ?_, ?_, ?_⟩
      · simpa [hbuf, husers, hpins] using hold.count
      · simpa [husers, hpins] using hold.bound
      · simp [hbuf, hbdev]
      · simp [hbuf]
      · simpa [hbuf] using hdata
      · simp [hbuf, hlock]
    · refine (hinv.bufInv b' hb').frame (by simp [hbuf, hne]) (by rw [hwaiting]) (hready b' hne)
        (by rw [hleaving]) (by rw [hpins]) (fun hvalid => hcontent _ ?_) (fun hvalid => hdisk _ ?_)
      all_goals exact hinv.valid_ne hdev hb hb' hbdev hvalid hne
  · intro b' hb'
    rw [husers]
    exact hinv.outside b' hb'
  · simpa only [hbuf, htag] using hinv.uniq
  · intro n hn
    have hne : n ≠ (s.bc.buf b).blockno := by
      simpa [hbuf] using (hn b hb (by simp [hbuf])).symm
    rw [hcontent n hne, hdisk n hne]
    refine hinv.uncached n ?_
    intro b' hb' hvalid
    obtain rfl | hbb := eq_or_ne b' b
    · exact hne.symm
    · simpa [hbuf, hbb] using hn b' hb' (by simpa [hbuf, hbb] using hvalid)

/-! ### `bread` -/

/-- A hit in `bget` adds one waiting call. -/
private theorem inv_bget_hit {dev b : Nat} {s : Sys P α} {p : P} (hinv : Inv dev s) (hb : b < nbuf)
    (hbdev : (s.bc.buf b).dev = dev) (hbound : s.users b + s.pins b + 1 < 2 ^ 32) :
    Inv dev { s with
      bc := s.bc.setBuf b { s.bc.buf b with refcnt := uint ((s.bc.buf b).refcnt + 1) }
      waiting := update s.waiting b (p :: s.waiting b) } := by
  have hold := hinv.bufInv b hb
  have hcount := hold.count
  simp only [Sys.users] at hcount hbound
  refine hinv.of_local hb hinv.linked ?_ ⟨_, _, setBuf_self _ _ _⟩ rfl rfl ?_ (fun _ => hbdev)
    (by simpa using hold.ready) (by simpa using hold.clean)
  · intro b' hne
    simp [hne]
  · simp only [Sys.users, setBuf_self, update_self, List.length_cons]
    rw [uint_of_lt (by omega)]
    omega

/-- A miss in `bget` reassigns a buffer whose contents are on disk. -/
private theorem inv_bget_miss {dev b blockno : Nat} {s : Sys P α} {p : P}
    (hinv : Inv dev s) (hb : b < nbuf)
    (hnone : ∀ b' < nbuf, ¬((s.bc.buf b').dev = dev ∧ (s.bc.buf b').blockno = blockno))
    (hfree : (s.bc.buf b).refcnt = 0) :
    Inv dev { s with
      bc := s.bc.setBuf b { s.bc.buf b with
        dev := dev, blockno := blockno, valid := false, refcnt := 1 }
      waiting := update s.waiting b (p :: s.waiting b) } := by
  have hold := hinv.bufInv b hb
  have hcount := hold.count
  have hwaiting : s.waiting b = [] := by
    rw [← List.length_eq_zero_iff]
    simp only [Sys.users] at hcount
    omega
  have hleaving : s.leaving b = [] := by
    rw [← List.length_eq_zero_iff]
    simp only [Sys.users] at hcount
    omega
  have hlock : (s.bc.buf b).lock = none := by
    cases hl : (s.bc.buf b).lock with
    | none => rfl
    | some q => simp [Sys.users, hl] at hcount; omega
  have hpins : s.pins b = 0 := by omega
  constructor
  · exact hinv.linked
  · intro b' hb'
    obtain rfl | hne := eq_or_ne b' b
    · constructor <;> simp [Sys.users, hwaiting, hleaving, hlock, hpins]
    · exact (hinv.bufInv b' hb').frame (by simp [hne]) (by simp [hne]) rfl rfl rfl
        (fun _ => rfl) (fun _ => rfl)
  · intro b' hb'
    have hne : b' ≠ b := by omega
    simpa [Sys.users, hne] using hinv.outside b' hb'
  · intro b₁ hb₁ b₂ hb₂ hne₀ hdevs hblocknos
    by_cases h₁ : b₁ = b <;> by_cases h₂ : b₂ = b
    · rw [h₁, h₂]
    · subst h₁
      simp only [setBuf_self, setBuf_of_ne _ _ _ h₂] at hdevs hblocknos
      exact (hnone b₂ hb₂ ⟨hdevs.symm, hblocknos.symm⟩).elim
    · subst h₂
      simp only [setBuf_self, setBuf_of_ne _ _ _ h₁] at hdevs hblocknos
      exact (hnone b₁ hb₁ ⟨hdevs, hblocknos⟩).elim
    · simp only [setBuf_of_ne _ _ _ h₁, setBuf_of_ne _ _ _ h₂] at hne₀ hdevs hblocknos
      exact hinv.uniq b₁ hb₁ b₂ hb₂ hne₀ hdevs hblocknos
  · intro n hn
    by_cases hmatch : (s.bc.buf b).valid = true ∧ (s.bc.buf b).blockno = n
    -- The recycled buffer was neither pinned nor locked, so its data is on disk.
    · have hclean : s.Clean b := by
        simpa [hpins, hlock] using hold.clean hmatch.1
      have hcached := hold.cached hmatch.1
      rw [Sys.Clean, hcached, hmatch.2] at hclean
      exact hclean
    · refine hinv.uncached n ?_
      intro b' hb' hvalid hblockno
      obtain rfl | hne := eq_or_ne b' b
      · exact hmatch ⟨hvalid, hblockno⟩
      · exact hn b' hb' (by simpa [hne] using hvalid) (by simpa [hne] using hblockno)

section Preservation

variable [DecidableEq P] {dev : Nat} {s s' : Sys P α} {p : P} {b : Nat}

/-- `bget` keeps the invariant. -/
theorem inv_bget {dev' blockno : Nat} (hinv : Inv dev s)
    (hone : OneDevice dev (.bget p dev' blockno : Act P α))
    (hbound : Bounded s (.bget p dev' blockno))
    (hstep : step s (.bget p dev' blockno) = some s') : Inv dev s' := by
  have hone : dev' = dev := hone
  subst hone
  obtain ⟨l, hlinked⟩ := hinv.linked
  simp only [step] at hstep
  split at hstep
  next b bc hget =>
    cases hstep
    obtain ⟨hb, ⟨hbdev, -, rfl⟩ | ⟨hnone, hfree, rfl⟩⟩ := bget_ok hlinked hget
    · exact inv_bget_hit hinv hb hbdev (hbound b hb)
    · exact inv_bget_miss hinv hb hnone hfree
  · cases hstep

/-- `acquiresleep` keeps the invariant. -/
theorem inv_acquiresleep (hinv : Inv dev s)
    (hstep : step s (.acquiresleep p b) = some s') : Inv dev s' := by
  obtain ⟨hmem, hlock, rfl⟩ := step_acquiresleep hstep
  have hpos : 0 < (s.waiting b).length := List.length_pos_of_mem hmem
  obtain ⟨hb, hbdev⟩ := hinv.dev_of_users (b := b) (by simp only [Sys.users]; omega)
  have hcount := (hinv.bufInv b hb).count
  have hbound := (hinv.bufInv b hb).bound
  simp only [Sys.users, hlock, Option.toList_none, List.length_nil] at hcount hbound
  refine hinv.of_local hb hinv.linked ?_ ⟨_, _, setBuf_self _ _ _⟩ rfl rfl ?_ (fun _ => hbdev)
    (by simp) (by simp)
  · intro b' hne
    simp [hne]
  · simp only [Sys.users, setBuf_self, update_self, Option.toList_some,
      List.length_erase_of_mem hmem, List.length_cons, List.length_nil]
    omega

/-- The read of `bread` keeps the invariant: an uncached block is on disk. -/
theorem inv_fill (hdev : dev ≠ 0) (hinv : Inv dev s)
    (hstep : step s (.fill p b) = some s') : Inv dev s' := by
  obtain ⟨⟨hlock, -⟩, ⟨⟩⟩ := Option.ite_none_right_eq_some.mp hstep
  obtain ⟨hb, hbdev⟩ := hinv.dev_of_users (users_pos_of_lock hlock)
  have hold := hinv.bufInv b hb
  unfold breadFill
  split
  next hvalid =>
    refine hinv.of_local hb hinv.linked ?_ ⟨_, _, rfl⟩ rfl rfl ⟨hold.count, hold.bound⟩
      (fun _ => hbdev) (fun _ _ => hvalid) hold.clean
    intro b' hne
    simp [hne]
  next hinvalid =>
    refine hinv.of_held (s.bc.disk (s.bc.buf b).blockno) hdev hlock hinv.linked
      (by simp [virtioDiskRw, Bcache.setBuf]) ⟨rfl, rfl, rfl⟩ (fun b' hne => by simp [hne]) ?_
      (fun _ _ => rfl) (fun _ _ => rfl)
    -- No buffer holds this block yet, so its contents are those of the disk.
    refine (hinv.uncached _ ?_).symm
    intro b' hb' hvalid'
    obtain rfl | hne := eq_or_ne b' b
    · exact (hinvalid hvalid').elim
    · exact hinv.valid_ne hdev hb hb' hbdev hvalid' hne

/-! ### The holder's calls -/

/-- The holder's writes to the data keep the invariant. -/
theorem inv_modify {data : α} (hdev : dev ≠ 0) (hinv : Inv dev s)
    (hstep : step s (.modify p b data) = some s') : Inv dev s' := by
  obtain ⟨⟨hlock, hready⟩, ⟨⟩⟩ := Option.ite_none_right_eq_some.mp hstep
  obtain ⟨hb, hbdev⟩ := hinv.dev_of_users (users_pos_of_lock hlock)
  have hvalid := (hinv.bufInv b hb).ready (by simp [hlock]) hready
  refine hinv.of_held data hdev hlock hinv.linked (by simp [modify, ← hvalid])
    ⟨rfl, rfl, rfl⟩ (fun _ _ => rfl) ?_ ?_ (fun _ _ => rfl)
  · simp [Sys.content, hbdev]
  · intro n hne
    simp [Sys.content, modify, hbdev, hne]

/-- `bwrite` keeps the invariant. -/
theorem inv_bwrite (hdev : dev ≠ 0) (hinv : Inv dev s)
    (hstep : step s (.bwrite p b) = some s') : Inv dev s' := by
  obtain ⟨hlock, hready, rfl⟩ := step_bwrite hstep
  obtain ⟨hb, -⟩ := hinv.dev_of_users (users_pos_of_lock hlock)
  have hvalid := (hinv.bufInv b hb).ready (by simp [hlock]) hready
  have hcached := (hinv.bufInv b hb).cached hvalid
  refine hinv.of_held (s.bc.buf b).data hdev hlock hinv.linked ?_ ⟨rfl, rfl, rfl⟩
    (fun _ _ => rfl) ?_ ?_ ?_
  · simp [virtioDiskRw, Bcache.setBuf, ← hvalid]
  -- The block written already had these contents in the cache.
  · simp only [Sys.content, virtioDiskRw, if_true, update_self] at hcached ⊢
    cases hleft : s.left dev (s.bc.buf b).blockno with
    | none => rfl
    | some d => simpa [hleft] using hcached
  all_goals
    intro n hne
    simp [Sys.content, virtioDiskRw, hne]

/-- `brelse` keeps the invariant if the data is on disk or pinned. -/
theorem inv_brelse (hinv : Inv dev s) (hsaved : Saved s (.brelse p b))
    (hstep : step s (.brelse p b) = some s') : Inv dev s' := by
  obtain ⟨hlock, -, rfl⟩ := step_brelse hstep
  obtain ⟨hb, hbdev⟩ := hinv.dev_of_users (users_pos_of_lock hlock)
  have hcount := (hinv.bufInv b hb).count
  have hbound := (hinv.bufInv b hb).bound
  simp only [Sys.users, hlock, Option.toList_some, List.length_cons, List.length_nil]
    at hcount hbound
  refine hinv.of_local hb hinv.linked ?_ ⟨_, _, setBuf_self _ _ _⟩ rfl rfl ?_ (fun _ => hbdev)
    (by simp) (fun _ => hsaved.imp_right Or.inl)
  · intro b' hne
    simp [hne]
  · simp only [Sys.users, setBuf_self, update_self, Option.toList_none,
      List.length_cons, List.length_nil]
    omega

/-- The second half of `brelse` keeps the invariant. -/
theorem inv_drop (hinv : Inv dev s) (hstep : step s (.drop p b) = some s') : Inv dev s' := by
  obtain ⟨hmem, ⟨⟩⟩ := Option.ite_none_right_eq_some.mp hstep
  have hpos : 0 < (s.leaving b).length := List.length_pos_of_mem hmem
  obtain ⟨hb, hbdev⟩ := hinv.dev_of_users (b := b) (by simp only [Sys.users]; omega)
  have hold := hinv.bufInv b hb
  have hcount := hold.count
  have hbound := hold.bound
  simp only [Sys.users] at hcount hbound
  obtain ⟨l, hlinked⟩ := hinv.linked
  refine hinv.of_local hb ⟨_, linked_brelseDrop hlinked hb⟩ ?_ ?_ (by simp) rfl ?_
    (fun _ => hbdev) (by simpa [brelseDrop_buf] using hold.ready)
    (by simpa [brelseDrop_buf] using hold.clean)
  · intro b' hne
    simp [brelseDrop_buf, hne]
  · refine ⟨(s.bc.buf b).lock, uint ((s.bc.buf b).refcnt + (2 ^ 32 - 1)), ?_⟩
    simp only [brelseDrop_buf, setBuf_self]
  · simp only [Sys.users, brelseDrop_buf, setBuf_self, update_self,
      List.length_erase_of_mem hmem, uint]
    omega

/-! ### Pins -/

/-- `bpin` keeps the invariant. -/
theorem inv_bpin (hinv : Inv dev s) (hbound : Bounded s (.bpin b))
    (hstep : step s (.bpin b) = some s') : Inv dev s' := by
  obtain ⟨hb, ⟨⟩⟩ := Option.ite_none_right_eq_some.mp hstep
  have hold := hinv.bufInv b hb
  have hcount := hold.count
  simp only [Bounded, Sys.users] at hbound hcount
  refine hinv.of_local hb hinv.linked ?_ ⟨_, _, setBuf_self _ _ _⟩ rfl rfl ?_ ?_
    (by simpa [bpin] using hold.ready) (fun _ => Or.inr (Or.inl (by simp)))
  · intro b' hne
    simp [bpin, hne]
  · simp only [Sys.users, bpin, setBuf_self, update_self]
    rw [uint_of_lt (by omega)]
    omega
  · intro hpos
    exact (hinv.dev_of_users (by simpa [Sys.users, bpin] using hpos)).2

/-- `bunpin` keeps the invariant if the buffer stays protected or is on disk. -/
theorem inv_bunpin (hinv : Inv dev s) (hsaved : Saved s (.bunpin b))
    (hstep : step s (.bunpin b) = some s') : Inv dev s' := by
  obtain ⟨hb, ⟨⟩⟩ := Option.ite_none_right_eq_some.mp hstep
  have hold := hinv.bufInv b hb
  have hcount := hold.count
  have hbound := hold.bound
  obtain ⟨hpinned, hwritten⟩ := hsaved
  simp only [Sys.users] at hcount hbound
  refine hinv.of_local hb hinv.linked ?_ ⟨_, _, setBuf_self _ _ _⟩ rfl rfl ?_ ?_
    (by simpa [bunpin] using hold.ready) ?_
  · intro b' hne
    simp [bunpin, hne]
  · simp only [Sys.users, bunpin, setBuf_self, update_self, uint]
    omega
  · intro hpos
    exact (hinv.dev_of_users (by simpa [Sys.users, bunpin] using hpos)).2
  · intro hvalid
    rcases hwritten hvalid with hpins | hlock | hclean
    · exact Or.inr (Or.inl (by simp; omega))
    · exact Or.inr (Or.inr (by simpa [bunpin] using hlock))
    · exact Or.inl hclean

/-- Every step that follows the rules keeps the invariant. -/
theorem inv_step {a : Act P α} (hdev : dev ≠ 0) (hinv : Inv dev s) (hsaved : Saved s a)
    (hone : OneDevice dev a) (hbound : Bounded s a)
    (hstep : step s a = some s') : Inv dev s' := by
  cases a with
  | bget p d n => exact inv_bget hinv hone hbound hstep
  | acquiresleep p b => exact inv_acquiresleep hinv hstep
  | fill p b => exact inv_fill hdev hinv hstep
  | modify p b data => exact inv_modify hdev hinv hstep
  | bwrite p b => exact inv_bwrite hdev hinv hstep
  | brelse p b => exact inv_brelse hinv hsaved hstep
  | drop p b => exact inv_drop hinv hstep
  | bpin b => exact inv_bpin hinv hbound hstep
  | bunpin b => exact inv_bunpin hinv hsaved hstep

/-! ### Marks -/

/-- Every step keeps the marks right: a mark comes with `modify` and goes only
when the buffer is read from the disk or written to it. -/
theorem marked_step {a : Act P α} (hdev : dev ≠ 0) (hinv : Inv dev s) (hmarked : Marked s)
    (hstep : step s a = some s') : Marked s' := by
  cases a with
  | bget p d n =>
    obtain ⟨l, hlinked⟩ := hinv.linked
    simp only [step] at hstep
    split at hstep
    next b bc hget =>
      cases hstep
      obtain ⟨-, ⟨-, -, rfl⟩ | ⟨-, -, rfl⟩⟩ := bget_ok hlinked hget
      · exact hmarked.setBuf rfl rfl rfl fun hvalid => ⟨hvalid, rfl, rfl⟩
      · exact hmarked.setBuf rfl rfl rfl fun hvalid => by cases hvalid
    · cases hstep
  | acquiresleep p b =>
    obtain ⟨-, -, rfl⟩ := step_acquiresleep hstep
    exact hmarked.setBuf rfl rfl rfl fun hvalid => ⟨hvalid, rfl, rfl⟩
  | fill p b =>
    obtain ⟨-, ⟨⟩⟩ := Option.ite_none_right_eq_some.mp hstep
    intro b' hb' hvalid hclean
    obtain rfl | hne := eq_or_ne b' b
    · by_cases hold : (s.bc.buf b').valid = true
      · simp only [breadFill, hold, if_true, update_self, Bool.true_and] at hclean ⊢
        exact hmarked b' hb' hold hclean
      · simp [Sys.Clean, breadFill, hold, virtioDiskRw]
    · have hbuf : (breadFill s.bc b).buf b' = s.bc.buf b' ∧
          (breadFill s.bc b).disk = s.bc.disk := by
        unfold breadFill
        split <;> simp [virtioDiskRw, hne]
      simp only [Sys.Clean, hbuf.1, hbuf.2, update_of_ne hne] at hvalid hclean ⊢
      exact hmarked b' hb' hvalid hclean
  | modify p b data =>
    obtain ⟨-, ⟨⟩⟩ := Option.ite_none_right_eq_some.mp hstep
    intro b' hb' hvalid hclean
    by_cases hne : b' = b
    · simp [hne] at hclean
    · simp only [Sys.Clean, modify, setBuf_of_ne _ _ _ hne, update_of_ne hne] at hvalid hclean ⊢
      exact hmarked b' hb' hvalid hclean
  | bwrite p b =>
    obtain ⟨hlock, -, rfl⟩ := step_bwrite hstep
    obtain ⟨hb, hbdev⟩ := hinv.dev_of_users (users_pos_of_lock hlock)
    intro b' hb' hvalid hclean
    by_cases hne : b' = b
    · simp [Sys.Clean, virtioDiskRw, hne]
    -- Another valid buffer carries another block, which this write leaves alone.
    · have hblock := hinv.valid_ne hdev hb hb' hbdev hvalid hne
      simp only [update_of_ne hne] at hclean
      simpa [Sys.Clean, virtioDiskRw, hblock] using hmarked b' hb' hvalid hclean
  | brelse p b =>
    obtain ⟨-, -, rfl⟩ := step_brelse hstep
    exact hmarked.setBuf rfl rfl rfl fun hvalid => ⟨hvalid, rfl, rfl⟩
  | drop p b =>
    obtain ⟨-, ⟨⟩⟩ := Option.ite_none_right_eq_some.mp hstep
    exact hmarked.setBuf (brelseDrop_buf _ _) (by simp) rfl fun hvalid => ⟨hvalid, rfl, rfl⟩
  | bpin b | bunpin b =>
    obtain ⟨-, ⟨⟩⟩ := Option.ite_none_right_eq_some.mp hstep
    exact hmarked.setBuf rfl rfl rfl fun hvalid => ⟨hvalid, rfl, rfl⟩

/-- The rules on the calls save the data, since an unmarked buffer is on disk. -/
theorem saved_of_rules {a : Act P α} (hinv : Inv dev s) (hmarked : Marked s)
    (hdisc : Disciplined s a) (hwritten : UnpinWritten s a) (hstep : step s a = some s') :
    Saved s a := by
  cases a with
  | brelse p b =>
    obtain ⟨hlock, hready, -⟩ := step_brelse hstep
    obtain ⟨hb, -⟩ := hinv.dev_of_users (users_pos_of_lock hlock)
    have hvalid := (hinv.bufInv b hb).ready (by simp [hlock]) hready
    exact hdisc.imp_left (hmarked b hb hvalid)
  | bunpin b =>
    obtain ⟨hb, -⟩ := Option.ite_none_right_eq_some.mp hstep
    exact ⟨hdisc, fun hvalid => hwritten.imp_right (Or.imp_right (hmarked b hb hvalid))⟩
  | bget _ _ _ | acquiresleep _ _ | fill _ _ | modify _ _ _ | bwrite _ _ | drop _ _
  | bpin _ => trivial

/-- No step reassigns a buffer whose reference count is not zero. -/
theorem step_keeps_block {a : Act P α} {l : List Nat} (hlinked : Linked s.bc l)
    (hstep : step s a = some s') {b' : Nat} (href : (s.bc.buf b').refcnt ≠ 0) :
    (s'.bc.buf b').dev = (s.bc.buf b').dev ∧ (s'.bc.buf b').blockno = (s.bc.buf b').blockno := by
  cases a with
  | bget p d n =>
    simp only [step] at hstep
    split at hstep
    next b bc hget =>
      cases hstep
      obtain ⟨-, ⟨-, -, rfl⟩ | ⟨-, hfree, rfl⟩⟩ := bget_ok hlinked hget
      · exact setBuf_tag (by rfl) (by rfl) b'
      · have hne : b' ≠ b := by
          rintro rfl
          exact href hfree
        simp [hne]
    · cases hstep
  | acquiresleep p b =>
    obtain ⟨-, -, rfl⟩ := step_acquiresleep hstep
    exact setBuf_tag (by rfl) (by rfl) b'
  | fill p b =>
    obtain ⟨-, ⟨⟩⟩ := Option.ite_none_right_eq_some.mp hstep
    exact breadFill_tag s.bc b b'
  | bwrite p b =>
    obtain ⟨-, -, rfl⟩ := step_bwrite hstep
    exact ⟨rfl, rfl⟩
  | brelse p b =>
    obtain ⟨-, -, rfl⟩ := step_brelse hstep
    exact setBuf_tag (by rfl) (by rfl) b'
  | drop p b =>
    obtain ⟨-, ⟨⟩⟩ := Option.ite_none_right_eq_some.mp hstep
    simp only [brelseDrop_buf]
    exact setBuf_tag (by rfl) (by rfl) b'
  | modify p b data | bpin b | bunpin b =>
    obtain ⟨-, ⟨⟩⟩ := Option.ite_none_right_eq_some.mp hstep
    exact setBuf_tag (by rfl) (by rfl) b'

/-- The invariant gives what the cache promises. -/
theorem Inv.coherent (hinv : Inv dev s) : Coherent s where
  list := by
    obtain ⟨l, hring, hmem⟩ := hinv.linked
    exact ⟨l, (List.nodup_cons.mp hring.nodup).2, hmem, hring.forward, hring.backward⟩
  uniq := hinv.uniq
  count := fun b hb => (hinv.bufInv b hb).count
  keeps := by
    intro a s' hstep b _ href
    obtain ⟨l, hlinked⟩ := hinv.linked
    exact step_keeps_block hlinked hstep (by omega)
  data := by
    intro p b hlock hready
    obtain ⟨hb, hbdev⟩ := hinv.dev_of_users (users_pos_of_lock hlock)
    have hold := hinv.bufInv b hb
    rw [hbdev]
    exact hold.cached (hold.ready (by simp [hlock]) hready)

/-! ## Whole interleavings -/

end Preservation

/-! ## Why each rule is needed -/

/-- A run that ends with a returned `bread` of stale data is not coherent. -/
private theorem not_coherent_of_exec {rule : Sys Nat Nat → Act Nat Nat → Prop}
    [∀ s a, Decidable (rule s a)] (as : List (Act Nat Nat)) (p b stale fresh : Nat)
    (hne : stale ≠ fresh)
    (hexec : (exec step rule (Sys.init (fun _ => 0) 0) as).map
      (fun s => ((s.bc.buf b).lock, s.ready b,
      (s.bc.buf b).data, s.content (s.bc.buf b).dev (s.bc.buf b).blockno)) =
        some (some p, true, stale, fresh)) :
    ∃ s, Run step rule (Sys.init (fun _ => 0) 0) s ∧ ¬Coherent s := by
  obtain ⟨s, hs, heq⟩ := Option.map_eq_some_iff.mp hexec
  simp only [Prod.mk.injEq] at heq
  obtain ⟨hlock, hready, hdata, hcontent⟩ := heq
  refine ⟨s, exec_run hs, ?_⟩
  intro hcoh
  have := hcoh.data p b hlock hready
  rw [hdata, hcontent] at this
  exact hne this

/-- Pinning one buffer `n` times leaves the count of `n` references modulo `2 ^ 32`. -/
private theorem exists_run_bpin (rule : Sys Nat Nat → Act Nat Nat → Prop)
    (hrule : ∀ s, rule s (.bpin 0)) (n : Nat) :
    ∃ s, Run step rule (Sys.init (fun _ => 0) 0) s ∧
      (s.bc.buf 0).refcnt = uint n ∧ s.users 0 = 0 ∧ s.pins 0 = n := by
  induction n with
  | zero => exact ⟨_, .refl, by simp [Sys.init, uint], by simp [Sys.init, Sys.users], rfl⟩
  | succ n ih =>
    obtain ⟨s, hrun, hcount, husers, hpins⟩ := ih
    refine ⟨{ s with bc := bpin s.bc 0, pins := update s.pins 0 (s.pins 0 + 1) },
      hrun.snoc (hrule s) (by simp [step, nbuf, maxopblocks]), ?_, ?_, ?_⟩
    · simp only [bpin, setBuf_self, hcount, uint]
      omega
    · simpa [Sys.users, bpin] using husers
    · simp [hpins]

end Bio
end Xv6
