import Mathlib.Data.List.Perm.Subperm
import Mathlib.Tactic.Tauto
import Xv6.Lib.Ring
import Xv6.Param

/-!
# Buffer cache operations

The atomic sections of `bio.c`.  Each definition below runs while one lock is
held, so an interleaving of these sections is an execution of the cache.  A
process of the kernel is named by an element of `P`, and a block's contents are
an element of `α`, which the cache never inspects.

Buffers are indices below `nbuf`; the index `nbuf` is the list head
`bcache.head`, which holds no block.

Main results:

- Theorem {lit}`bget_ok`: the two searches of `bget` either find the block, or
  recycle an unused buffer after the whole list has been searched in vain.
- Theorem {lit}`ring_binit`: initialization links every buffer once.
- Theorem {lit}`linked_brelseDrop`: relinking a released buffer keeps the list.
-/

namespace Xv6
namespace Bio

open Lib Function

variable {P α : Type}

/-! ## Data -/

/-- `struct buf`, without the list links.  `lock` names the process that holds
the sleep-lock. -/
structure Buf (P α : Type) where
  valid : Bool
  dev : Nat
  blockno : Nat
  lock : Option P
  refcnt : Nat
  data : α

/-- The cache, and the disk behind it.  `issued` records the block writes that
have been sent to the disk, oldest first. -/
structure Bcache (P α : Type) where
  buf : Nat → Buf P α
  next : Nat → Nat
  prev : Nat → Nat
  disk : Nat → α
  issued : List (Nat × α)

/-- The list head `bcache.head`. -/
def bhead : Nat := nbuf

/-- Overwrite one buffer. -/
@[simps -fullyApplied next prev disk issued]
def Bcache.setBuf (s : Bcache P α) (b : Nat) (x : Buf P α) : Bcache P α :=
  { s with buf := update s.buf b x }

section SetBuf

variable (s : Bcache P α) (b : Nat) (x : Buf P α)

/-- The buffer itself. -/
@[simp]
theorem setBuf_self : (s.setBuf b x).buf b = x := by
  simp [Bcache.setBuf]

/-- The other buffers. -/
@[simp]
theorem setBuf_of_ne {b' : Nat} (hne : b' ≠ b) : (s.setBuf b x).buf b' = s.buf b' := by
  simp [Bcache.setBuf, hne]

end SetBuf

/-! ## Relinking -/

/-- The four assignments that put `b` right after the head. -/
@[simps -fullyApplied buf disk issued]
def linkFront (s : Bcache P α) (b : Nat) : Bcache P α :=
  let next₁ := update s.next b (s.next bhead)
  let prev₁ := update s.prev b bhead
  let prev₂ := update prev₁ (next₁ bhead) b
  let next₂ := update next₁ bhead b
  { s with next := next₂, prev := prev₂ }

/-- The two assignments that take `b` out of the list. -/
def unlink (s : Bcache P α) (b : Nat) : Bcache P α :=
  let prev₁ := update s.prev (s.next b) (s.prev b)
  let next₁ := update s.next (prev₁ b) (s.next b)
  { s with next := next₁, prev := prev₁ }

/-- The links of the cache represent exactly the buffers, in the order `l`. -/
def Linked (s : Bcache P α) (l : List Nat) : Prop :=
  Ring s.next s.prev bhead l ∧ ∀ b, b ∈ l ↔ b < nbuf

/-- Inserting after the head adds a buffer that was not linked before. -/
theorem ring_linkFront {s : Bcache P α} {l : List Nat} {b : Nat}
    (hring : Ring s.next s.prev bhead l) (hb : b < nbuf) (hfresh : b ∉ l) :
    Ring (linkFront s b).next (linkFront s b).prev bhead (b :: l) := by
  have hne : bhead ≠ b := by unfold bhead; omega
  have hinsert := hring.insertHead (x := b) (by simp [hfresh, hne.symm])
  simpa [linkFront, hne] using hinsert

/-- Unlinking a member and inserting it again moves it to the front. -/
theorem linked_moveFront {s : Bcache P α} {l : List Nat} {b : Nat}
    (hlinked : Linked s l) (hb : b < nbuf) :
    Linked (linkFront (unlink s b) b) (b :: l.erase b) := by
  obtain ⟨hring, hmem⟩ := hlinked
  obtain ⟨l₁, l₂, hl⟩ := List.append_of_mem ((hmem b).mpr hb)
  subst hl
  have hnodup := (List.nodup_cons.mp hring.nodup).2
  have hb₁ : b ∉ l₁ := fun h => (List.nodup_append.mp hnodup).2.2 b h b (by simp) rfl
  have hb₂ : b ∉ l₂ := (List.nodup_cons.mp (List.nodup_append.mp hnodup).2.1).1
  have herase : (l₁ ++ b :: l₂).erase b = l₁ ++ l₂ := by
    rw [List.erase_append_right _ hb₁, List.erase_cons_head]
  -- `b->next` is another node, so writing `b->next->prev` leaves `b->prev` alone.
  have hself : s.next b ≠ b := by
    rw [hring.next_mem]
    intro heq
    have hlast := List.getLast_mem (l := bhead :: l₂.reverse) (by simp)
    rw [heq] at hlast
    have hbh : b ≠ bhead := by unfold bhead; omega
    simp [hbh, hb₂] at hlast
  have hunlink : Ring (unlink s b).next (unlink s b).prev bhead (l₁ ++ l₂) := by
    have := hring.unlink
    simpa [unlink, update_of_ne hself.symm] using this
  rw [herase]
  refine ⟨ring_linkFront hunlink hb (by simp [hb₁, hb₂]), ?_⟩
  intro b'
  rw [← hmem b']
  simp only [List.mem_cons, List.mem_append]
  tauto

/-! ## The operations -/

/-- `binit`: all buffers are zero and linked after the head one by one. -/
def binit (disk : Nat → α) (zero : α) : Bcache P α :=
  (List.range nbuf).foldl linkFront
    { buf := fun _ => ⟨false, 0, 0, none, 0, zero⟩
      next := fun _ => bhead
      prev := fun _ => bhead
      disk := disk
      issued := [] }

/-- `bget` up to `acquiresleep`: find the block, or recycle the least recently
used buffer that nobody refers to. -/
def bget (s : Bcache P α) (dev blockno : Nat) : Except String (Nat × Bcache P α) :=
  match scan s.next bhead (fun b => (s.buf b).dev = dev && (s.buf b).blockno = blockno) nbuf
      (s.next bhead) with
  | some b => .ok (b, s.setBuf b { s.buf b with refcnt := uint ((s.buf b).refcnt + 1) })
  | none =>
    match scan s.prev bhead (fun b => (s.buf b).refcnt = 0) nbuf (s.prev bhead) with
    | some b =>
      .ok (b, s.setBuf b { s.buf b with
        dev := dev, blockno := blockno, valid := false, refcnt := 1 })
    | none => .error "bget: no buffers"

/-- `acquiresleep(&b->lock)`; there is no step while another process holds it. -/
def acquiresleep (s : Bcache P α) (p : P) (b : Nat) : Option (Bcache P α) :=
  match (s.buf b).lock with
  | none => some (s.setBuf b { s.buf b with lock := some p })
  | some _ => none

/-- `virtio_disk_rw`: the driver addresses the disk by `b->blockno` alone. -/
def virtioDiskRw (s : Bcache P α) (b : Nat) (write : Bool) : Bcache P α :=
  let x := s.buf b
  if write then
    { s with
      disk := update s.disk x.blockno x.data
      issued := s.issued ++ [(x.blockno, x.data)] }
  else
    s.setBuf b { x with data := s.disk x.blockno }

/-- The rest of `bread` once the buffer is locked. -/
def breadFill (s : Bcache P α) (b : Nat) : Bcache P α :=
  if (s.buf b).valid then s
  else
    let s := virtioDiskRw s b false
    s.setBuf b { s.buf b with valid := true }

/-- In-place modification of a buffer's data. -/
def modify (s : Bcache P α) (b : Nat) (data : α) : Bcache P α :=
  s.setBuf b { s.buf b with data := data }

/-- `bwrite`. -/
def bwrite [DecidableEq P] (s : Bcache P α) (p : P) (b : Nat) : Except String (Bcache P α) :=
  if (s.buf b).lock = some p then .ok (virtioDiskRw s b true) else .error "bwrite"

/-- `brelse` up to and including `releasesleep(&b->lock)`. -/
def brelseUnlock [DecidableEq P] (s : Bcache P α) (p : P) (b : Nat) :
    Except String (Bcache P α) :=
  if (s.buf b).lock = some p then .ok (s.setBuf b { s.buf b with lock := none })
  else .error "brelse"

/-- The rest of `brelse`: drop the reference, and move an unused buffer to the
front of the list. -/
def brelseDrop (s : Bcache P α) (b : Nat) : Bcache P α :=
  let s := s.setBuf b { s.buf b with refcnt := uint ((s.buf b).refcnt + (2 ^ 32 - 1)) }
  if (s.buf b).refcnt = 0 then linkFront (unlink s b) b else s

/-- `bpin`. -/
def bpin (s : Bcache P α) (b : Nat) : Bcache P α :=
  s.setBuf b { s.buf b with refcnt := uint ((s.buf b).refcnt + 1) }

/-- `bunpin`. -/
def bunpin (s : Bcache P α) (b : Nat) : Bcache P α :=
  s.setBuf b { s.buf b with refcnt := uint ((s.buf b).refcnt + (2 ^ 32 - 1)) }

/-! ## The list stays linked -/

/-- Inserting one buffer after another. -/
private theorem ring_foldl_linkFront {s : Bcache P α} {l : List Nat}
    (hring : Ring s.next s.prev bhead l) (bs : List Nat) (hnodup : bs.Nodup)
    (hlt : ∀ b ∈ bs, b < nbuf) (hdisj : ∀ b ∈ bs, b ∉ l) :
    Ring (bs.foldl linkFront s).next (bs.foldl linkFront s).prev bhead (bs.reverse ++ l) := by
  induction bs generalizing s l with
  | nil => simpa using hring
  | cons b bs ih =>
    have hstep := ring_linkFront hring (hlt b (by simp)) (hdisj b (by simp))
    have hrest := ih hstep (List.nodup_cons.mp hnodup).2
      (fun b' hb' => hlt b' (by simp [hb'])) (by
        intro b' hb'
        simp only [List.mem_cons, not_or]
        refine ⟨?_, hdisj b' (by simp [hb'])⟩
        rintro rfl
        exact (List.nodup_cons.mp hnodup).1 hb')
    simpa using hrest

/-- Inserting leaves the buffers and the disk alone. -/
private theorem foldl_linkFront_buf (s : Bcache P α) (bs : List Nat) :
    (bs.foldl linkFront s).buf = s.buf ∧ (bs.foldl linkFront s).disk = s.disk ∧
      (bs.foldl linkFront s).issued = s.issued := by
  induction bs generalizing s with
  | nil => simp
  | cons b bs ih => simpa using ih (linkFront s b)

/-- Initialization links every buffer exactly once. -/
theorem ring_binit (disk : Nat → α) (zero : α) :
    Linked (binit disk zero : Bcache P α) (List.range nbuf).reverse := by
  constructor
  · have hempty : Ring (fun _ => bhead) (fun _ => bhead) bhead ([] : List Nat) :=
      Ring.empty rfl rfl
    have := ring_foldl_linkFront (P := P) (α := α)
      (s := ⟨fun _ => ⟨false, 0, 0, none, 0, zero⟩, fun _ => bhead, fun _ => bhead, disk, []⟩)
      hempty (List.range nbuf) List.nodup_range (by simp) (by simp)
    simpa [binit] using this
  · simp

/-- All buffers are empty. -/
@[simp]
theorem binit_buf (disk : Nat → α) (zero : α) (b : Nat) :
    (binit disk zero : Bcache P α).buf b = ⟨false, 0, 0, none, 0, zero⟩ := by
  unfold binit
  rw [(foldl_linkFront_buf _ _).1]

/-- The disk is as before. -/
@[simp]
theorem binit_disk (disk : Nat → α) (zero : α) :
    (binit disk zero : Bcache P α).disk = disk := by
  unfold binit
  rw [(foldl_linkFront_buf _ _).2.1]

/-- Nothing has been written. -/
@[simp]
theorem binit_issued (disk : Nat → α) (zero : α) :
    (binit disk zero : Bcache P α).issued = [] := by
  unfold binit
  rw [(foldl_linkFront_buf _ _).2.2]

/-- Dropping a reference keeps every buffer linked once. -/
theorem linked_brelseDrop {s : Bcache P α} {l : List Nat} {b : Nat}
    (hlinked : Linked s l) (hb : b < nbuf) :
    Linked (brelseDrop s b) (if uint ((s.buf b).refcnt + (2 ^ 32 - 1)) = 0
      then b :: l.erase b else l) := by
  unfold brelseDrop
  simp only [setBuf_self]
  split
  · exact linked_moveFront hlinked hb
  · exact hlinked

/-- `brelseDrop` changes one reference count and the links. -/
theorem brelseDrop_buf (s : Bcache P α) (b : Nat) :
    (brelseDrop s b).buf = (s.setBuf b { s.buf b with
      refcnt := uint ((s.buf b).refcnt + (2 ^ 32 - 1)) }).buf := by
  unfold brelseDrop
  simp only [setBuf_self]
  split <;> rfl

/-- The disk is as before. -/
@[simp]
theorem brelseDrop_disk (s : Bcache P α) (b : Nat) : (brelseDrop s b).disk = s.disk := by
  unfold brelseDrop
  simp only [setBuf_self]
  split <;> rfl

/-- Nothing is written. -/
@[simp]
theorem brelseDrop_issued (s : Bcache P α) (b : Nat) : (brelseDrop s b).issued = s.issued := by
  unfold brelseDrop
  simp only [setBuf_self]
  split <;> rfl

/-! ## Looking a block up -/

/-- The list is no longer than the number of buffers. -/
theorem Linked.length_le {s : Bcache P α} {l : List Nat} (hlinked : Linked s l) :
    l.length ≤ nbuf := by
  obtain ⟨hring, hmem⟩ := hlinked
  have hsub : l ⊆ List.range nbuf := fun b hb => List.mem_range.mpr ((hmem b).mp hb)
  have hnodup := (List.nodup_cons.mp hring.nodup).2
  simpa using (List.subperm_of_subset hnodup hsub).length_le

/-- The two outcomes of `bget`: a buffer that already carries the block, or,
when no buffer does, an unreferenced buffer reassigned to it. -/
theorem bget_ok {s s' : Bcache P α} {l : List Nat} {dev blockno b : Nat}
    (hlinked : Linked s l) (hget : bget s dev blockno = .ok (b, s')) :
    b < nbuf ∧
      (((s.buf b).dev = dev ∧ (s.buf b).blockno = blockno ∧
          s' = s.setBuf b { s.buf b with refcnt := uint ((s.buf b).refcnt + 1) }) ∨
        ((∀ b' < nbuf, ¬((s.buf b').dev = dev ∧ (s.buf b').blockno = blockno)) ∧
          (s.buf b).refcnt = 0 ∧
          s' = s.setBuf b { s.buf b with
            dev := dev, blockno := blockno, valid := false, refcnt := 1 })) := by
  have hlen := hlinked.length_le
  obtain ⟨hring, hmem⟩ := hlinked
  unfold bget at hget
  rw [hring.scan_next _ hlen, hring.scan_prev _ hlen] at hget
  split at hget
  next b₀ hfind =>
    cases hget
    have hp := List.find?_some hfind
    simp only [Bool.and_eq_true, decide_eq_true_eq] at hp
    exact ⟨(hmem b).mp (List.mem_of_find?_eq_some hfind), Or.inl ⟨hp.1, hp.2, rfl⟩⟩
  next hnone =>
    split at hget
    next b₀ hfind =>
      cases hget
      have hb := List.mem_of_find?_eq_some hfind
      have hp := List.find?_some hfind
      simp only [decide_eq_true_eq] at hp
      refine ⟨(hmem b).mp (by simpa using hb), Or.inr ⟨?_, hp, rfl⟩⟩
      intro b' hb' hmatch
      have := List.find?_eq_none.mp hnone b' ((hmem b').mpr hb')
      simp [hmatch.1, hmatch.2] at this
    · cases hget

end Bio
end Xv6
