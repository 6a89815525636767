import Mathlib.Data.Finset.Card
import Mathlib.Tactic
import Xv6.Bio.Cache

/-!
# The buffer cache in sequential use

While the log is recovered or committed one process uses the cache alone.  For
such a caller the cache is a `View`: the contents of every block, the disk, and
which blocks are referenced and held.

Main results:

- Theorem {lit}`Repr.bread`: `bread` returns a locked buffer with the block's
  contents, if the referenced blocks leave a buffer free for it.
- Theorems {lit}`Repr.modify`, {lit}`Repr.bwrite`, {lit}`Repr.bunpin` and
  {lit}`Repr.brelse`: the other calls act on the view.
-/

namespace Xv6
namespace Bio

open Lib Function

variable {P α : Type}

/-! ## Sequential calls -/

/-- `bread` by a process that nobody else competes with.  If the buffer is
locked it would sleep forever. -/
def bread (s : Bcache P α) (p : P) (dev blockno : Nat) : Except String (Nat × Bcache P α) :=
  match bget s dev blockno with
  | .error e => .error e
  | .ok (b, s) =>
    match acquiresleep s p b with
    | none => .error "acquiresleep: deadlock"
    | some s => .ok (b, breadFill s b)

/-- `brelse`. -/
def brelse [DecidableEq P] (s : Bcache P α) (p : P) (b : Nat) : Except String (Bcache P α) :=
  match brelseUnlock s p b with
  | .error e => .error e
  | .ok s => .ok (brelseDrop s b)

/-! ## Views -/

/-- What a single process sees of the cache: the contents of each block, the disk
behind it, the references to each block, the blocks held by the process, and the
writes sent to the disk. -/
@[ext]
structure View (α : Type) where
  data : Nat → α
  disk : Nat → α
  refs : Nat → Nat
  held : Nat → Bool
  issued : List (Nat × α)

namespace View

/-- Lock a block and take a reference to it. -/
@[simps -fullyApplied]
def bread (v : View α) (n : Nat) : View α :=
  { v with
    refs := update v.refs n (uint (v.refs n + 1))
    held := update v.held n true }

/-- Change a block in place. -/
@[simps -fullyApplied]
def modify (v : View α) (n : Nat) (data : α) : View α :=
  { v with data := update v.data n data }

/-- Write a block to the disk. -/
@[simps -fullyApplied]
def bwrite (v : View α) (n : Nat) : View α :=
  { v with
    disk := update v.disk n (v.data n)
    issued := v.issued ++ [(n, v.data n)] }

/-- Add a pin. -/
@[simps -fullyApplied]
def bpin (v : View α) (n : Nat) : View α :=
  { v with refs := update v.refs n (uint (v.refs n + 1)) }

/-- Drop a pin. -/
@[simps -fullyApplied]
def bunpin (v : View α) (n : Nat) : View α :=
  { v with refs := update v.refs n (uint (v.refs n + (2 ^ 32 - 1))) }

/-- Unlock a block and drop the reference to it. -/
@[simps -fullyApplied]
def brelse (v : View α) (n : Nat) : View α :=
  { v with
    refs := update v.refs n (uint (v.refs n + (2 ^ 32 - 1)))
    held := update v.held n false }

/-- No block is held, and the reference counts are 32-bit numbers. -/
def Idle (v : View α) : Prop :=
  ∀ n, v.held n = false ∧ v.refs n < 2 ^ 32

/-- An unreferenced block may lose its buffer. -/
def Safe (v : View α) : Prop :=
  ∀ n, v.refs n = 0 → v.held n = false ∧ v.data n = v.disk n

/-- The referenced blocks are in `S`, which is no larger than the cache. -/
def Room (v : View α) (S : Finset Nat) : Prop :=
  S.card ≤ nbuf ∧ ∀ n, v.refs n ≠ 0 → n ∈ S

/-- Reading another block is safe. -/
theorem Safe.bread {v : View α} {n : Nat} (hsafe : v.Safe) (hn : uint (v.refs n + 1) ≠ 0) :
    (v.bread n).Safe := by
  intro m hm
  obtain rfl | heq := eq_or_ne m n
  · exact (hn (by simpa using hm)).elim
  · simpa [heq] using hsafe m (by simpa [heq] using hm)

/-- There is room for the blocks that are read. -/
theorem Room.bread {v : View α} {S : Finset Nat} {n : Nat} (hroom : v.Room S) (hn : n ∈ S) :
    (v.bread n).Room S := by
  refine ⟨hroom.1, ?_⟩
  intro m hm
  by_cases heq : m = n
  · rw [heq]
    exact hn
  · exact hroom.2 m (by simpa [heq] using hm)

end View

/-! ## Representation -/

/-- Buffer `b` is assigned to block `n`. -/
def Tagged (s : Bcache P α) (dev b n : Nat) : Prop :=
  b < nbuf ∧ (s.buf b).dev = dev ∧ (s.buf b).blockno = n

/-- A buffer agrees with the view of its block. -/
structure BufRepr (p : P) (x : Buf P α) (v : View α) (n : Nat) : Prop where
  refcnt : x.refcnt = v.refs n
  lock : x.lock = if v.held n then some p else none
  data : x.valid = true → x.data = v.data n
  unread : x.valid = false → v.held n = false ∧ v.data n = v.disk n

/-- The cache represents the view of process `p`. -/
structure Repr (p : P) (dev : Nat) (s : Bcache P α) (v : View α) : Prop where
  linked : ∃ l, Linked s l
  disk : s.disk = v.disk
  issued : s.issued = v.issued
  spare : ∀ b < nbuf, (s.buf b).dev = dev ∨ ((s.buf b).dev = 0 ∧ (s.buf b).valid = false ∧
    (s.buf b).refcnt = 0 ∧ (s.buf b).lock = none)
  outside : ∀ b, nbuf ≤ b → (s.buf b).lock = none
  uniq : ∀ b b' n, Tagged s dev b n → Tagged s dev b' n → b = b'
  cached : ∀ b n, Tagged s dev b n → BufRepr p (s.buf b) v n
  absent : ∀ n, (∀ b, ¬Tagged s dev b n) →
    v.refs n = 0 ∧ v.held n = false ∧ v.data n = v.disk n

section Repr

variable {p : P} {dev b n : Nat} {s : Bcache P α} {v v' : View α}

/-- The fresh cache shows the disk. -/
theorem repr_binit (p : P) {dev : Nat} (hdev : dev ≠ 0) (disk : Nat → α) (zero : α) :
    Repr p dev (binit disk zero : Bcache P α)
      ⟨disk, disk, fun _ => 0, fun _ => false, []⟩ where
  linked := ⟨_, ring_binit disk zero⟩
  disk := by simp
  issued := by simp
  spare := by simp
  outside := by simp
  uniq := by
    rintro b b' n ⟨-, hb, -⟩
    simp [hdev.symm] at hb
  cached := by
    rintro b n ⟨-, hb, -⟩
    simp [hdev.symm] at hb
  absent := by simp

/-- A buffer agrees with any view that agrees with the old one on its block. -/
theorem BufRepr.congr {x : Buf P α} (h : BufRepr p x v n) (hrefs : v'.refs n = v.refs n)
    (hheld : v'.held n = v.held n) (hdata : v'.data n = v.data n)
    (hdisk : v'.disk n = v.disk n) : BufRepr p x v' n := by
  constructor
  · rw [hrefs]
    exact h.refcnt
  · rw [hheld]
    exact h.lock
  · rw [hdata]
    exact h.data
  · rw [hheld, hdata, hdisk]
    exact h.unread

/-- A buffer that keeps its block. -/
theorem tagged_setBuf {x : Buf P α} (htag : Tagged s dev b n) (hx : x.dev = dev)
    (hxn : x.blockno = n) {b' n' : Nat} :
    Tagged (s.setBuf b x) dev b' n' ↔ Tagged s dev b' n' := by
  obtain rfl | heq := eq_or_ne b' b
  · simp only [Tagged, setBuf_self, hx, hxn, htag.2.1, htag.2.2]
  · simp [Tagged, heq]

/-- Changing the data keeps the blocks. -/
@[simp]
theorem tagged_modify {b' n' : Nat} {data : α} :
    Tagged (modify s b data) dev b' n' ↔ Tagged s dev b' n' := by
  by_cases heq : b' = b
  · simp [Tagged, modify, heq]
  · simp [Tagged, modify, heq]

/-- Dropping a pin keeps the blocks. -/
@[simp]
theorem tagged_bunpin {b' n' : Nat} : Tagged (bunpin s b) dev b' n' ↔ Tagged s dev b' n' := by
  by_cases heq : b' = b
  · simp [Tagged, bunpin, heq]
  · simp [Tagged, bunpin, heq]

/-- Changing one buffer changes the view of its block. -/
theorem Repr.setBuf {x : Buf P α} (h : Repr p dev s v) (htag : Tagged s dev b n)
    (hx : x.dev = dev) (hxn : x.blockno = n) (hdisk : v'.disk = v.disk)
    (hissued : v'.issued = v.issued)
    (hother : ∀ m ≠ n, v'.refs m = v.refs m ∧ v'.held m = v.held m ∧ v'.data m = v.data m)
    (hself : BufRepr p x v' n) : Repr p dev (s.setBuf b x) v' := by
  constructor
  · exact h.linked
  · rw [hdisk]
    exact h.disk
  · rw [hissued]
    exact h.issued
  · intro b' hb'
    obtain rfl | heq := eq_or_ne b' b
    · simp [hx]
    · simpa [heq] using h.spare b' hb'
  · intro b' hb'
    have hne : b' ≠ b := by have := htag.1; omega
    rw [setBuf_of_ne _ _ _ hne]
    exact h.outside b' hb'
  · intro b₁ b₂ m h₁ h₂
    rw [tagged_setBuf htag hx hxn] at h₁ h₂
    exact h.uniq b₁ b₂ m h₁ h₂
  · intro b' m hm
    rw [tagged_setBuf htag hx hxn] at hm
    obtain rfl | heq := eq_or_ne b' b
    · rw [← hm.2.2, htag.2.2, setBuf_self]
      exact hself
    · have hne : m ≠ n := by
        rintro rfl
        exact heq (h.uniq b' b m hm htag)
      rw [setBuf_of_ne _ _ _ heq]
      obtain ⟨h₁, h₂, h₃⟩ := hother m hne
      exact (h.cached b' m hm).congr h₁ h₂ h₃ (by rw [hdisk])
  · intro m hm
    simp only [tagged_setBuf htag hx hxn] at hm
    have hne : m ≠ n := by
      rintro rfl
      exact hm b htag
    obtain ⟨h₁, h₂, h₃⟩ := hother m hne
    rw [h₁, h₂, h₃, hdisk]
    exact h.absent m hm

/-- A held block is in a buffer that its holder has locked and read. -/
theorem Repr.held_buf (h : Repr p dev s v) (htag : Tagged s dev b n) (hheld : v.held n = true) :
    (s.buf b).lock = some p ∧ (s.buf b).valid = true ∧ (s.buf b).data = v.data n := by
  have hbuf := h.cached b n htag
  have hvalid : (s.buf b).valid = true := by
    cases hv : (s.buf b).valid with
    | true => rfl
    | false =>
      have := (hbuf.unread hv).1
      simp [hheld] at this
  exact ⟨by simpa [hheld] using hbuf.lock, hvalid, hbuf.data hvalid⟩

/-! ## Finding a buffer -/

/-- No buffer is locked while no block is held. -/
theorem Repr.unlocked (h : Repr p dev s v) (hheld : ∀ n, v.held n = false) (b : Nat) :
    (s.buf b).lock = none := by
  by_cases hb : b < nbuf
  · rcases h.spare b hb with hdev | ⟨-, -, -, hnone⟩
    · simpa [hheld] using (h.cached b _ ⟨hb, hdev, rfl⟩).lock
    · exact hnone
  · exact h.outside b (by omega)

/-- `bget` fails only if the block is not cached and every buffer is referenced. -/
theorem bget_error {e : String} {l : List Nat} (hlinked : Linked s l)
    (hget : bget s dev n = .error e) :
    (∀ b, ¬Tagged s dev b n) ∧ ∀ b < nbuf, (s.buf b).refcnt ≠ 0 := by
  obtain ⟨hring, hmem⟩ := hlinked
  have hlen := Linked.length_le ⟨hring, hmem⟩
  unfold bget at hget
  rw [hring.scan_next _ hlen, hring.scan_prev _ hlen] at hget
  split at hget
  · cases hget
  rename_i hmiss
  split at hget
  · cases hget
  rename_i hfull
  constructor
  · rintro b ⟨hb, hdev, hblock⟩
    have := List.find?_eq_none.mp hmiss b ((hmem b).mpr hb)
    simp [hdev, hblock] at this
  · intro b hb
    have := List.find?_eq_none.mp hfull b (by simpa using (hmem b).mpr hb)
    simpa using this

/-- If fewer blocks are referenced than there are buffers, some buffer is free. -/
theorem Repr.exists_unreferenced {S : Finset Nat} (h : Repr p dev s v) (hcard : S.card < nbuf)
    (hrefs : ∀ n, v.refs n ≠ 0 → n ∈ S) : ∃ b < nbuf, (s.buf b).refcnt = 0 := by
  by_contra hnone
  push Not at hnone
  have htag : ∀ b < nbuf, Tagged s dev b (s.buf b).blockno := by
    intro b hb
    refine ⟨hb, ?_, rfl⟩
    rcases h.spare b hb with hdev | ⟨-, -, hzero, -⟩
    · exact hdev
    · exact (hnone b hb hzero).elim
  -- Distinct buffers carry distinct blocks, so `S` has at least `nbuf` members.
  have hle : (Finset.range nbuf).card ≤ S.card := by
    apply Finset.card_le_card_of_injOn fun b => (s.buf b).blockno
    · intro b hb
      have hb := Finset.mem_range.mp hb
      apply hrefs
      rw [← (h.cached b _ (htag b hb)).refcnt]
      exact hnone b hb
    · intro b hb b' hb' heq
      have hb := Finset.mem_range.mp hb
      have hb' := Finset.mem_range.mp hb'
      simp only at heq
      exact h.uniq b b' _ (htag b hb) (heq ▸ htag b' hb')
  rw [Finset.card_range] at hle
  omega

/-! ## The calls -/

/-- The buffer that `bread` returns for block `n`. -/
def filled (p : P) (dev n : Nat) (v : View α) : Buf P α :=
  ⟨true, dev, n, some p, uint (v.refs n + 1), v.data n⟩

/-- A buffer that has just been filled. -/
theorem bufRepr_filled : BufRepr p (filled p dev n v) (v.bread n) n := by
  constructor
  · simp [filled]
  · simp [filled]
  · simp [filled]
  · simp [filled]

/-- Once `bget` has found an unlocked buffer, `bread` locks and fills it. -/
theorem bread_of_bget {y : Buf P α} (hget : bget s dev n = .ok (b, s.setBuf b y))
    (hlock : y.lock = none) :
    bread s p dev n = .ok (b, s.setBuf b { y with
      lock := some p, valid := true, data := if y.valid then y.data else s.disk y.blockno }) := by
  unfold bread
  rw [hget]
  simp only [acquiresleep, setBuf_self, hlock]
  unfold breadFill
  by_cases hvalid : y.valid = true
  · simp [Bcache.setBuf, hvalid]
  · simp [Bcache.setBuf, virtioDiskRw, hvalid]

/-- A block that is cached is found. -/
theorem Repr.bread_hit {y : Buf P α} (h : Repr p dev s v) (htag : Tagged s dev b n)
    (hheld : v.held n = false)
    (hy : y = { s.buf b with refcnt := uint ((s.buf b).refcnt + 1) })
    (hget : bget s dev n = .ok (b, s.setBuf b y)) :
    bread s p dev n = .ok (b, s.setBuf b (filled p dev n v)) ∧
      Repr p dev (s.setBuf b (filled p dev n v)) (v.bread n) := by
  have hbuf := h.cached b n htag
  constructor
  · have hfill : (if (s.buf b).valid = true then (s.buf b).data else s.disk n) = v.data n := by
      split
      next hvalid =>
        exact hbuf.data hvalid
      next hvalid =>
        rw [h.disk, (hbuf.unread (by simpa using hvalid)).2]
    rw [bread_of_bget hget (by rw [hy]; simpa [hheld] using hbuf.lock)]
    subst hy
    simp only [filled, hbuf.refcnt, htag.2.1, htag.2.2, hfill]
  · refine h.setBuf htag rfl rfl ?_ ?_ ?_ bufRepr_filled
    · rfl
    · rfl
    · intro m hm
      simp [hm]

/-- A block that is not cached takes the place of an unreferenced one, whose
contents are then those on disk. -/
theorem Repr.bread_miss {y : Buf P α} {f : Nat → α} (h : Repr p dev s v)
    (hb : b < nbuf) (hzero : (s.buf b).refcnt = 0) (hlock : (s.buf b).lock = none)
    (hmiss : ∀ b, ¬Tagged s dev b n)
    (hlost : ∀ m, Tagged s dev b m → f m = v.disk m)
    (hkept : ∀ m, ¬Tagged s dev b m → f m = v.data m)
    (hy : y = { s.buf b with dev := dev, blockno := n, valid := false, refcnt := 1 })
    (hget : bget s dev n = .ok (b, s.setBuf b y)) :
    bread s p dev n = .ok (b, s.setBuf b (filled p dev n v)) ∧
      Repr p dev (s.setBuf b (filled p dev n v)) ({ v with data := f }.bread n) := by
  obtain ⟨hrefs, hheld, hdata⟩ := h.absent n hmiss
  have hself : (s.setBuf b (filled p dev n v)).buf b = filled p dev n v := setBuf_self _ _ _
  have hfilled : filled p dev n { v with data := f } = filled p dev n v := by
    simp only [filled, hkept n (hmiss b)]
  -- Every other buffer keeps its block, and none of them has block `n`.
  have htag : ∀ b' m, Tagged (s.setBuf b (filled p dev n v)) dev b' m ↔
      (b' = b ∧ m = n) ∨ (b' ≠ b ∧ Tagged s dev b' m) := by
    intro b' m
    obtain rfl | heq := eq_or_ne b' b
    · simp [Tagged, filled, hb, eq_comm]
    · simp [Tagged, heq]
  constructor
  · rw [bread_of_bget hget (by rw [hy]; exact hlock)]
    subst hy
    simp [filled, hrefs, uint, hdata, h.disk]
  · constructor
    · exact h.linked
    · exact h.disk
    · exact h.issued
    · intro b' hb'
      obtain rfl | heq := eq_or_ne b' b
      · simp [filled]
      · simpa [heq] using h.spare b' hb'
    · intro b' hb'
      have hne : b' ≠ b := by omega
      rw [setBuf_of_ne _ _ _ hne]
      exact h.outside b' hb'
    · intro b₁ b₂ m h₁ h₂
      rcases (htag b₁ m).mp h₁ with ⟨rfl, rfl⟩ | ⟨-, hold₁⟩
      · rcases (htag b₂ m).mp h₂ with ⟨rfl, -⟩ | ⟨-, hold₂⟩
        · rfl
        · exact (hmiss b₂ hold₂).elim
      · rcases (htag b₂ m).mp h₂ with ⟨-, rfl⟩ | ⟨-, hold₂⟩
        · exact (hmiss b₁ hold₁).elim
        · exact h.uniq b₁ b₂ m hold₁ hold₂
    · intro b' m hm
      rcases (htag b' m).mp hm with ⟨rfl, rfl⟩ | ⟨hne, hold⟩
      · rw [hself, ← hfilled]
        exact bufRepr_filled
      · have hmn : m ≠ n := by
          rintro rfl
          exact hmiss b' hold
        rw [setBuf_of_ne _ _ _ hne]
        refine (h.cached b' m hold).congr (by simp [hmn]) (by simp [hmn])
          (hkept m fun htag' => hne (h.uniq b' b m hold htag')) rfl
    · intro m hm
      have hmn : m ≠ n := by
        rintro rfl
        exact hm b ((htag b m).mpr (Or.inl ⟨rfl, rfl⟩))
      simp only [View.bread, update_of_ne hmn]
      by_cases hold : Tagged s dev b m
      · -- The block that lost its buffer was unreferenced and not held.
        have hbuf := h.cached b m hold
        refine ⟨by rw [← hbuf.refcnt, hzero], ?_, hlost m hold⟩
        have := hbuf.lock
        rw [hlock] at this
        by_contra hheld'
        simp [hheld'] at this
      · rw [hkept m hold]
        apply h.absent m
        intro b' hb'
        obtain rfl | heq := eq_or_ne b' b
        · exact hold hb'
        · exact hm b' ((htag b' m).mpr (Or.inr ⟨heq, hb'⟩))

/-- `bread` of a block that the caller does not hold, when the referenced blocks
leave room for it. -/
theorem Repr.bread {S : Finset Nat} (h : Repr p dev s v) (hsafe : v.Safe) (hroom : v.Room S)
    (hn : n ∈ S) (hheld : v.held n = false) :
    ∃ b s', bread s p dev n = .ok (b, s') ∧ Repr p dev s' (v.bread n) ∧ Tagged s' dev b n ∧
      ∀ b' n', Tagged s dev b' n' → v.refs n' ≠ 0 → Tagged s' dev b' n' := by
  obtain ⟨l, hlinked⟩ := h.linked
  cases hget : bget s dev n with
  | error e =>
    -- There would be no buffer left, against the bound on `S`.
    obtain ⟨hmiss, hfull⟩ := bget_error hlinked hget
    have hcard : (S.erase n).card < nbuf := by
      rw [Finset.card_erase_of_mem hn]
      have := Finset.card_pos.mpr ⟨n, hn⟩
      have := hroom.1
      omega
    obtain ⟨b, hb, hzero⟩ := h.exists_unreferenced hcard (by
      intro m hm
      refine Finset.mem_erase.mpr ⟨?_, hroom.2 m hm⟩
      rintro rfl
      exact hm (h.absent m hmiss).1)
    exact (hfull b hb hzero).elim
  | ok r =>
    obtain ⟨b, s₁⟩ := r
    obtain ⟨hb, ⟨hdev, hblock, rfl⟩ | ⟨hmiss, hzero, rfl⟩⟩ := bget_ok hlinked hget
    · have htag : Tagged s dev b n := ⟨hb, hdev, hblock⟩
      obtain ⟨hread, hrepr⟩ := h.bread_hit htag hheld rfl hget
      refine ⟨b, _, hread, hrepr, (tagged_setBuf htag rfl rfl).mpr htag, ?_⟩
      intro b' n' htag' _
      exact (tagged_setBuf htag rfl rfl).mpr htag'
    · have hlock : (s.buf b).lock = none := by
        rcases h.spare b hb with hd | ⟨-, -, -, hlock⟩
        · have hbuf := h.cached b _ ⟨hb, hd, rfl⟩
          have := (hsafe _ (hbuf.refcnt.symm.trans hzero)).1
          simpa [this] using hbuf.lock
        · exact hlock
      have hmiss' : ∀ b, ¬Tagged s dev b n := fun b' hb' => hmiss b' hb'.1 hb'.2
      obtain ⟨hread, hrepr⟩ := h.bread_miss hb hzero hlock hmiss'
        (fun m hm => (hsafe m (by rw [← (h.cached b m hm).refcnt, hzero])).2) (fun _ _ => rfl)
        rfl hget
      refine ⟨b, _, hread, hrepr, ⟨hb, by simp [filled], by simp [filled]⟩, ?_⟩
      intro b' n' htag' hrefs
      have hne : b' ≠ b := by
        rintro rfl
        exact hrefs (by rw [← (h.cached b' n' htag').refcnt, hzero])
      simpa [Tagged, hne] using htag'

/-- If all other buffers are referenced, `bread` of a block that is not cached
drops the contents of block `m`. -/
theorem Repr.bread_evict {m : Nat} (h : Repr p dev s v) (htag : Tagged s dev b m)
    (hzero : v.refs m = 0) (hheld : v.held m = false) (hmiss : ∀ b, ¬Tagged s dev b n)
    (honly : ∀ b' < nbuf, (s.buf b').refcnt = 0 → b' = b) :
    ∃ s', Bio.bread s p dev n = .ok (b, s') ∧
      Repr p dev s' ((v.modify m (v.disk m)).bread n) ∧ Tagged s' dev b n ∧
      ∀ b' n', Tagged s dev b' n' → b' ≠ b → Tagged s' dev b' n' := by
  obtain ⟨l, hlinked⟩ := h.linked
  have hbuf := h.cached b m htag
  cases hget : bget s dev n with
  | error e =>
    exact ((bget_error hlinked hget).2 b htag.1 (hbuf.refcnt.trans hzero)).elim
  | ok r =>
    obtain ⟨c, s₁⟩ := r
    obtain ⟨hc, ⟨hdev, hblock, -⟩ | ⟨-, hfree, rfl⟩⟩ := bget_ok hlinked hget
    · exact (hmiss c ⟨hc, hdev, hblock⟩).elim
    · have hcb := honly c hc hfree
      subst hcb
      obtain ⟨hread, hrepr⟩ := h.bread_miss (f := update v.data m (v.disk m)) hc hfree
        (by simpa [hheld] using hbuf.lock) hmiss
        (fun m' hm' => by rw [show m' = m from hm'.2.2.symm.trans htag.2.2, update_self])
        (fun m' hm' => update_of_ne (by rintro rfl; exact hm' htag) _ _) rfl hget
      refine ⟨_, hread, hrepr, ⟨hc, by simp [filled], by simp [filled]⟩, ?_⟩
      intro b' n' htag' hne
      simpa [Tagged, hne] using htag'

/-- If all but one of the buffers hold referenced blocks, at most one is free. -/
theorem Repr.unique_unreferenced {T : Finset Nat} (h : Repr p dev s v) (hcard : nbuf ≤ T.card + 1)
    (hrefs : ∀ n ∈ T, v.refs n ≠ 0) {b b' : Nat} (hb : b < nbuf) (hb' : b' < nbuf)
    (hzero : (s.buf b).refcnt = 0) (hzero' : (s.buf b').refcnt = 0) : b = b' := by
  by_contra hne
  have htag : ∀ n ∈ T, ∃ c, Tagged s dev c n := by
    intro n hn
    by_contra hnone
    push Not at hnone
    exact hrefs n hn (h.absent n hnone).1
  choose! c hc using htag
  -- The buffers of `T` are distinct, and neither `b` nor `b'` is among them.
  have hle : T.card ≤ (((Finset.range nbuf).erase b).erase b').card := by
    apply Finset.card_le_card_of_injOn c
    · intro n hn
      have hn : n ∈ T := hn
      have hbusy : (s.buf (c n)).refcnt ≠ 0 := by
        rw [(h.cached _ n (hc n hn)).refcnt]
        exact hrefs n hn
      simp only [Finset.coe_erase, Finset.coe_range, Set.mem_sdiff, Set.mem_Iio,
        Set.mem_singleton_iff]
      refine ⟨⟨(hc n hn).1, ?_⟩, ?_⟩
      · rintro heq
        exact hbusy (by rw [heq, hzero])
      · rintro heq
        exact hbusy (by rw [heq, hzero'])
    · intro n hn n' hn' heq
      have h₁ := (hc n hn).2.2
      rw [heq, (hc n' hn').2.2] at h₁
      exact h₁.symm
  rw [Finset.card_erase_of_mem (by simp [hb', Ne.symm hne]),
    Finset.card_erase_of_mem (by simp [hb]), Finset.card_range] at hle
  have : 2 ≤ nbuf := by decide
  omega

/-- Changing a held buffer in place. -/
theorem Repr.modify (h : Repr p dev s v) (htag : Tagged s dev b n) (hheld : v.held n = true)
    (data : α) : Repr p dev (modify s b data) (v.modify n data) := by
  have hbuf := h.cached b n htag
  refine h.setBuf htag htag.2.1 htag.2.2 rfl rfl (fun m hm => by simp [hm]) ?_
  exact { hbuf with
    data := by simp
    unread := fun hvalid => by simp [(h.held_buf htag hheld).2.1] at hvalid }

/-- Writing a held buffer. -/
theorem Repr.bwrite [DecidableEq P] (h : Repr p dev s v) (htag : Tagged s dev b n)
    (hheld : v.held n = true) :
    ∃ s', bwrite s p b = .ok s' ∧ Repr p dev s' (v.bwrite n) ∧ s'.buf = s.buf := by
  obtain ⟨hlock, hvalid, hdata⟩ := h.held_buf htag hheld
  refine ⟨virtioDiskRw s b true, by simp [Bio.bwrite, hlock], ?_, rfl⟩
  refine { h with
    disk := by simp [virtioDiskRw, htag.2.2, hdata, h.disk]
    issued := by simp [virtioDiskRw, htag.2.2, hdata, h.issued]
    cached := fun b' m hm => ?_
    absent := fun m hm => ?_ }
  · have hold := h.cached b' m hm
    obtain rfl | hmn := eq_or_ne m n
    · have hbb : b' = b := h.uniq b' b m hm htag
      subst hbb
      exact { hold with
        unread := fun hinvalid => absurd (hvalid.symm.trans hinvalid) (by simp) }
    · exact hold.congr rfl rfl rfl (by simp [hmn])
  · have hmn : m ≠ n := by
      rintro rfl
      exact hm b htag
    simpa [hmn] using h.absent m hm

/-- Adding a pin. -/
theorem Repr.bpin (h : Repr p dev s v) (htag : Tagged s dev b n) :
    Repr p dev (bpin s b) (v.bpin n) := by
  have hbuf := h.cached b n htag
  refine h.setBuf htag htag.2.1 htag.2.2 rfl rfl (fun m hm => by simp [hm]) ?_
  exact { hbuf with refcnt := by simp [hbuf.refcnt] }

/-- Dropping a pin. -/
theorem Repr.bunpin (h : Repr p dev s v) (htag : Tagged s dev b n) :
    Repr p dev (bunpin s b) (v.bunpin n) := by
  have hbuf := h.cached b n htag
  refine h.setBuf htag htag.2.1 htag.2.2 rfl rfl (fun m hm => by simp [hm]) ?_
  exact { hbuf with refcnt := by simp [hbuf.refcnt] }

/-- Moving a buffer in the list does not change what the cache represents. -/
theorem Repr.relink {s' : Bcache P α} (h : Repr p dev s v) (hlinked : ∃ l, Linked s' l)
    (hbuf : s'.buf = s.buf) (hdisk : s'.disk = s.disk) (hissued : s'.issued = s.issued) :
    Repr p dev s' v := by
  have htag : ∀ b n, Tagged s' dev b n ↔ Tagged s dev b n := by simp [Tagged, hbuf]
  constructor
  · exact hlinked
  · rw [hdisk, h.disk]
  · rw [hissued, h.issued]
  · rw [hbuf]
    exact h.spare
  · rw [hbuf]
    exact h.outside
  · simpa only [htag] using h.uniq
  · simpa only [htag, hbuf] using h.cached
  · simpa only [htag] using h.absent

/-- Releasing a held buffer. -/
theorem Repr.brelse [DecidableEq P] (h : Repr p dev s v) (htag : Tagged s dev b n)
    (hheld : v.held n = true) :
    ∃ s', brelse s p b = .ok s' ∧ Repr p dev s' (v.brelse n) ∧
      ∀ b' n', Tagged s' dev b' n' ↔ Tagged s dev b' n' := by
  obtain ⟨hlock, hvalid, hdata⟩ := h.held_buf htag hheld
  have hbuf := h.cached b n htag
  set x : Buf P α := { s.buf b with
    lock := none, refcnt := uint ((s.buf b).refcnt + (2 ^ 32 - 1)) } with hx
  have hrepr : Repr p dev (s.setBuf b x) (v.brelse n) := by
    refine h.setBuf htag htag.2.1 htag.2.2 rfl rfl (fun m hm => by simp [hm]) ?_
    constructor
    · simp [hx, hbuf.refcnt]
    · simp [hx]
    · intro _
      exact hdata
    · intro hinvalid
      exact absurd (hvalid.symm.trans hinvalid) (by simp)
  have hbufs : (brelseDrop (s.setBuf b { s.buf b with lock := none }) b).buf =
      (s.setBuf b x).buf := by
    rw [brelseDrop_buf]
    simp [Bcache.setBuf, hx]
  refine ⟨brelseDrop (s.setBuf b { s.buf b with lock := none }) b, ?_, ?_, ?_⟩
  · simp [Bio.brelse, brelseUnlock, hlock]
  · obtain ⟨l, hl⟩ := h.linked
    refine hrepr.relink ⟨_, linked_brelseDrop (l := l) ?_ htag.1⟩ hbufs ?_ ?_
    · exact hl
    · simp
    · simp
  · intro b' n'
    rw [← tagged_setBuf (x := x) htag htag.2.1 htag.2.2]
    simp only [Tagged, hbufs]

end Repr

end Bio
end Xv6
