import Mathlib.Algebra.BigOperators.Group.Finset.Basic
import Mathlib.Data.ZMod.Basic
import Mathlib.Tactic
import Xv6.Log.Commit

/-!
# Reference counts after recovery

`install_trans` drops a pin of every block it installs.  In a commit `log_write` has taken
that pin; in recovery nobody has.  The sum of all reference counts, which wraps like the
counts themselves, shows how many references recovery has dropped in excess.

Main results:

- Theorem {lit}`wp_installTrans_total`: the sum of the counts drops by one for each block.
- Theorem {lit}`recovery_clean_iff`: recovery leaves the cache clean just when the log was
  empty.
-/

namespace Xv6
namespace Log

open Lib Bio

variable {P : Type}

/-! ## The sum of the counts -/

/-- The sum of the reference counts, modulo `2 ^ 32`. -/
def refTotal (bc : Bcache P Block) : ZMod (2 ^ 32) :=
  ∑ b ∈ Finset.range nbuf, ((bc.buf b).refcnt : ZMod (2 ^ 32))

/-- The cache is linked, and its counts sum up to `x`. -/
def Totals (x : ZMod (2 ^ 32)) (bc : Bcache P Block) : Prop :=
  (∃ l, Linked bc l) ∧ refTotal bc = x

section Totals

variable {bc bc' : Bcache P Block} {b : Nat} {x : ZMod (2 ^ 32)}

theorem cast_uint (n : Nat) : ((uint n : Nat) : ZMod (2 ^ 32)) = n :=
  ZMod.natCast_mod n (2 ^ 32)

theorem cast_uint_pred (n : Nat) :
    ((uint (n + (2 ^ 32 - 1)) : Nat) : ZMod (2 ^ 32)) = n - 1 := by
  have hsum : ((n + (2 ^ 32 - 1) + 1 : Nat) : ZMod (2 ^ 32)) = n := by
    rw [show n + (2 ^ 32 - 1) + 1 = n + 2 ^ 32 by omega, Nat.cast_add, ZMod.natCast_self, add_zero]
  rw [cast_uint, eq_sub_iff_add_eq, ← hsum]
  push_cast
  ring

/-- The sum after one buffer has changed. -/
theorem refTotal_setBuf (hb : b < nbuf) (y : Buf P Block) :
    refTotal (bc.setBuf b y) = refTotal bc + ((y.refcnt : ZMod (2 ^ 32)) - (bc.buf b).refcnt) := by
  have hmem : b ∈ Finset.range nbuf := Finset.mem_range.mpr hb
  unfold refTotal
  rw [← Finset.add_sum_erase _ _ hmem, ← Finset.add_sum_erase (Finset.range nbuf)
    (fun b => ((bc.buf b).refcnt : ZMod (2 ^ 32))) hmem, setBuf_self]
  have hrest : ∑ i ∈ (Finset.range nbuf).erase b, (((bc.setBuf b y).buf i).refcnt : ZMod (2 ^ 32)) =
      ∑ i ∈ (Finset.range nbuf).erase b, ((bc.buf i).refcnt : ZMod (2 ^ 32)) :=
    Finset.sum_congr rfl fun i hi => by rw [setBuf_of_ne _ _ _ (Finset.ne_of_mem_erase hi)]
  rw [hrest]
  ring

theorem refTotal_congr (hbuf : bc'.buf = bc.buf) : refTotal bc' = refTotal bc := by
  unfold refTotal
  rw [hbuf]

theorem Totals.setBuf {y : Buf P Block} (h : Totals x bc) (hb : b < nbuf) :
    Totals (x + ((y.refcnt : ZMod (2 ^ 32)) - (bc.buf b).refcnt)) (bc.setBuf b y) :=
  ⟨h.1, by rw [refTotal_setBuf hb, h.2]⟩

/-- A change of a buffer that leaves its count alone. -/
theorem Totals.keep {y : Buf P Block} (h : Totals x bc) (hb : b < nbuf)
    (hy : y.refcnt = (bc.buf b).refcnt) : Totals x (bc.setBuf b y) := by
  have hset := h.setBuf (y := y) hb
  rwa [hy, sub_self, add_zero] at hset

/-- Reading a buffer from the disk does not change its count. -/
theorem Totals.breadFill (h : Totals x bc) (hb : b < nbuf) : Totals x (Bio.breadFill bc b) := by
  unfold Bio.breadFill
  split
  · exact h
  · have h₁ : Totals x (virtioDiskRw bc b false) := by
      rw [virtioDiskRw, if_neg Bool.false_ne_true]
      exact h.keep hb rfl
    exact h₁.keep hb rfl

/-- `bget` takes one reference. -/
theorem Totals.bget {dev n : Nat} (h : Totals x bc) (hget : Bio.bget bc dev n = .ok (b, bc')) :
    b < nbuf ∧ Totals (x + 1) bc' := by
  obtain ⟨l, hl⟩ := h.1
  obtain ⟨hb, ⟨-, -, rfl⟩ | ⟨-, hzero, rfl⟩⟩ := bget_ok hl hget
  · refine ⟨hb, ?_⟩
    have hset := h.setBuf (y := { bc.buf b with refcnt := uint ((bc.buf b).refcnt + 1) }) hb
    rwa [cast_uint, Nat.cast_add, add_sub_cancel_left, Nat.cast_one] at hset
  · refine ⟨hb, ?_⟩
    have hset := h.setBuf (y := { bc.buf b with
      dev := dev, blockno := n, valid := false, refcnt := 1 }) hb
    rwa [hzero, Nat.cast_zero, sub_zero, Nat.cast_one] at hset

/-- `bread` takes one reference. -/
theorem Totals.bread {p : P} {dev n : Nat} (h : Totals x bc)
    (hread : Bio.bread bc p dev n = .ok (b, bc')) : b < nbuf ∧ Totals (x + 1) bc' := by
  unfold Bio.bread at hread
  split at hread
  · cases hread
  next b₁ bc₁ hget =>
    obtain ⟨hb, h₁⟩ := h.bget hget
    unfold acquiresleep at hread
    split at hread
    · cases hread
    next bc₂ hlock =>
      cases hread
      refine ⟨hb, ?_⟩
      split at hlock
      · cases hlock
        have h₂ : Totals (x + 1) (bc₁.setBuf b { bc₁.buf b with lock := some p }) := h₁.keep hb rfl
        exact h₂.breadFill hb
      · cases hlock

/-- `bunpin` drops one reference. -/
theorem Totals.bunpin (h : Totals x bc) (hb : b < nbuf) : Totals (x - 1) (Bio.bunpin bc b) := by
  have hset := h.setBuf (y := { bc.buf b with
    refcnt := uint ((bc.buf b).refcnt + (2 ^ 32 - 1)) }) hb
  rwa [cast_uint_pred, sub_sub_cancel_left, ← sub_eq_add_neg] at hset

/-- `brelse` drops one reference. -/
theorem Totals.brelse [DecidableEq P] {p : P} (h : Totals x bc) (hb : b < nbuf)
    (hrelse : Bio.brelse bc p b = .ok bc') : Totals (x - 1) bc' := by
  unfold Bio.brelse brelseUnlock at hrelse
  split at hrelse
  · cases hrelse
  next bc₁ hunlock =>
    split at hunlock
    · obtain rfl := Except.ok.inj hrelse
      obtain rfl := Except.ok.inj hunlock
      have h₁ : Totals x (bc.setBuf b { bc.buf b with lock := none }) := h.keep hb rfl
      obtain ⟨l, hl⟩ := h₁.1
      refine ⟨⟨_, linked_brelseDrop hl hb⟩, ?_⟩
      rw [refTotal_congr (brelseDrop_buf _ b)]
      exact (h₁.bunpin hb).2
    · cases hunlock

end Totals

/-! ## Recovery -/

section Recovery

variable {k : Kernel P} {p : P} {x : ZMod (2 ^ 32)} {b : Nat}

/-- A call of the cache, if it returns. -/
theorem wp_onCache {β : Type} {f : Bcache P Block → Except String (β × Bcache P Block)}
    {Q : β → Kernel P → Prop} (hQ : ∀ a bc, f k.bc = .ok (a, bc) → Q a { k with bc := bc }) :
    Wp (onCache f) k Q fun _ _ => True := by
  unfold Wp onCache
  cases hf : f k.bc with
  | ok r => exact hQ r.1 r.2 hf
  | error e => trivial

theorem wp_bread_total (dev n : Nat) (h : Totals x k.bc) :
    Wp (bread p dev n) k (fun b k' => b < nbuf ∧ k'.log = k.log ∧ Totals (x + 1) k'.bc)
      fun _ _ => True :=
  wp_onCache fun _ _ hread => ⟨(h.bread hread).1, rfl, (h.bread hread).2⟩

theorem wp_setData_total {data : Block} (h : Totals x k.bc) (hb : b < nbuf) :
    Wp (setData b data) k (fun _ k' => k'.log = k.log ∧ Totals x k'.bc) fun _ _ => True := by
  refine wp_onCache fun _ bc hset => ?_
  cases hset
  exact ⟨rfl, h.keep hb rfl⟩

theorem wp_bunpin_total (h : Totals x k.bc) (hb : b < nbuf) :
    Wp (bunpin b) k (fun _ k' => k'.log = k.log ∧ Totals (x - 1) k'.bc) fun _ _ => True := by
  refine wp_onCache fun _ bc hset => ?_
  cases hset
  exact ⟨rfl, h.bunpin hb⟩

theorem wp_bdata_total : Wp (bdata b) k (fun _ k' => k' = k) fun _ _ => True :=
  wp_bind_get.mpr (wp_pure.mpr rfl)

variable [DecidableEq P]

theorem wp_bwrite_total (h : Totals x k.bc) :
    Wp (bwrite p b) k (fun _ k' => k'.log = k.log ∧ Totals x k'.bc) fun _ _ => True := by
  refine wp_onCache fun _ bc hwrite => ?_
  unfold Bio.bwrite at hwrite
  split at hwrite
  · cases hwrite
    exact ⟨rfl, h⟩
  · cases hwrite

theorem wp_brelse_total (h : Totals x k.bc) (hb : b < nbuf) :
    Wp (brelse p b) k (fun _ k' => k'.log = k.log ∧ Totals (x - 1) k'.bc) fun _ _ => True := by
  refine wp_onCache fun _ bc hrelse => ?_
  cases hr : Bio.brelse k.bc p b with
  | error e =>
    rw [hr] at hrelse
    cases hrelse
  | ok bc₁ =>
    rw [hr] at hrelse
    cases hrelse
    exact ⟨rfl, h.brelse hb hr⟩

/-- A round of `install_trans` takes two references and drops three. -/
theorem wp_installBlock_total (dev l d : Nat) (h : Totals x k.bc) :
    Wp (installBlock p dev l d) k (fun _ k' => k'.log = k.log ∧ Totals (x - 1) k'.bc)
      fun _ _ => True := by
  refine (wp_bread_total dev l h).bind ?_
  rintro lbuf k₁ ⟨hl, hlog₁, h₁⟩
  refine (wp_bread_total dev d h₁).bind ?_
  rintro dbuf k₂ ⟨hd, hlog₂, h₂⟩
  refine wp_bdata_total.bind ?_
  rintro data _ rfl
  refine (wp_setData_total h₂ hd).bind ?_
  rintro - k₃ ⟨hlog₃, h₃⟩
  refine (wp_bwrite_total h₃).bind ?_
  rintro - k₄ ⟨hlog₄, h₄⟩
  refine (wp_bunpin_total h₄ hd).bind ?_
  rintro - k₅ ⟨hlog₅, h₅⟩
  refine (wp_brelse_total h₅ hl).bind ?_
  rintro - k₆ ⟨hlog₆, h₆⟩
  refine (wp_brelse_total h₆ hd).mono ?_ fun _ _ => id
  rintro - k₇ ⟨hlog₇, h₇⟩
  refine ⟨by rw [hlog₇, hlog₆, hlog₅, hlog₄, hlog₃, hlog₂, hlog₁], ?_⟩
  have hx : x + 1 + 1 - 1 - 1 - 1 = x - 1 := by ring
  rwa [hx] at h₇

/-- `install_trans` drops one reference for each block. -/
theorem wp_installTrans_total (h : Totals x k.bc) :
    Wp (installTrans p) k (fun _ k' => Totals (x - k.log.lh.n) k'.bc) fun _ _ => True := by
  refine wp_bind_get.mpr ?_
  refine wp_forUpto (fun i (k' : Kernel P) => Totals (x - i) k'.bc) (by simpa using h) ?_
  intro i _ k' hk'
  refine (wp_installBlock_total _ _ _ hk').mono ?_ fun _ _ => id
  rintro - k'' ⟨-, h''⟩
  rwa [sub_sub, ← Nat.cast_succ] at h''

/-- `read_head` gives back what it takes. -/
theorem wp_readHead_total (h : Totals x k.bc) :
    Wp (readHead p) k (fun _ k' => Totals x k'.bc) fun _ _ => True := by
  refine wp_bind_get.mpr ?_
  refine (wp_bread_total _ _ h).bind ?_
  rintro b k₁ ⟨hb, -, h₁⟩
  refine wp_bdata_total.bind ?_
  rintro data _ rfl
  refine wp_bind_modify.mpr ?_
  refine Wp.mono (wp_brelse_total (by exact h₁) hb) ?_ fun _ _ => id
  rintro - k₂ ⟨-, h₂⟩
  rwa [add_sub_cancel_right] at h₂

/-- `write_head` gives back what it takes. -/
theorem wp_writeHead_total (h : Totals x k.bc) :
    Wp (writeHead p) k (fun _ k' => Totals x k'.bc) fun _ _ => True := by
  refine wp_bind_get.mpr ?_
  refine (wp_bread_total _ _ h).bind ?_
  rintro b k₁ ⟨hb, -, h₁⟩
  refine wp_bdata_total.bind ?_
  rintro data _ rfl
  refine (wp_setData_total h₁ hb).bind ?_
  rintro - k₂ ⟨-, h₂⟩
  refine (wp_bwrite_total h₂).bind ?_
  rintro - k₃ ⟨-, h₃⟩
  refine (wp_brelse_total h₃ hb).mono ?_ fun _ _ => id
  rintro - k₄ ⟨-, h₄⟩
  rwa [add_sub_cancel_right] at h₄

omit [DecidableEq P] in
/-- The sum of the counts of a fresh cache. -/
theorem totals_binit (disk : Nat → Block) : Totals 0 (binit disk fun _ => 0 : Bcache P Block) :=
  ⟨⟨_, ring_binit disk _⟩, Finset.sum_eq_zero fun b _ => by simp⟩

/-- The kernel with a fresh cache. -/
def fresh (disk : Nat → Block) (log : Log) : Kernel P := ⟨binit disk fun _ => 0, log⟩

/-- What `read_head` finds in a fresh cache. -/
theorem returns_readHead_fresh {disk : Nat → Block} {log : Log} (hdev : log.dev ≠ 0) :
    Returns (readHead p) (fresh disk log) fun _ k' => ∃ block,
      Shows p log.dev { log with lh := ⟨headCount (disk log.start), block⟩ }
        ⟨disk, disk, fun _ => 0, fun _ => false, []⟩ k' := by
  have hshows : Shows p log.dev log ⟨disk, disk, fun _ => 0, fun _ => false, []⟩
      (fresh disk log) := ⟨rfl, repr_binit p hdev disk _⟩
  refine (returns_readHead (S := {log.start}) hshows (fun _ _ => ⟨rfl, rfl⟩)
    (fun _ => ⟨rfl, Nat.two_pow_pos 32⟩)
    ⟨by rw [Finset.card_singleton]; decide, fun n hn => absurd rfl hn⟩
    (Finset.mem_singleton_self _)).mono ?_
  exact fun _ k' hk' => ⟨_, hk'⟩

/-- Recovery drops one reference in excess for each block it installs. -/
theorem wp_recoverFromLog_total {disk : Nat → Block} {log : Log} (hdev : log.dev ≠ 0) :
    Wp (recoverFromLog p) (fresh disk log)
      (fun _ k' => refTotal k'.bc = -(headCount (disk log.start) : ZMod (2 ^ 32)))
      fun _ _ => True := by
  have hread := Wp.and (returns_readHead_fresh (p := p) hdev)
    (wp_readHead_total (k := fresh disk log)
    (totals_binit disk))
  refine Wp.bind (hread.mono (fun _ _ => id) fun _ _ _ => trivial) ?_
  rintro - k₁ ⟨⟨block, hshows⟩, h₁⟩
  refine (wp_installTrans_total h₁).bind ?_
  intro _ k₂ h₂
  refine wp_bind_modify.mpr ?_
  refine Wp.mono (wp_writeHead_total (by exact h₂)) ?_ fun _ _ => id
  intro _ k₃ h₃
  rw [h₃.2, hshows.log_eq, zero_sub]

/-- Recovery of an empty log returns and leaves no references. -/
theorem returns_recoverFromLog_empty {disk : Nat → Block} {log : Log} (hdev : log.dev ≠ 0)
    (hempty : headCount (disk log.start) = 0) :
    Returns (recoverFromLog p) (fresh disk log)
      fun _ k' => ∀ b < nbuf, (k'.bc.buf b).refcnt = 0 := by
  refine (returns_readHead_fresh hdev).bind ?_
  rintro - k₁ ⟨block, h₁⟩
  rw [hempty] at h₁
  -- there is nothing to install
  have hinstall : Returns (installTrans p) k₁ fun _ k₂ => k₂ = k₁ := by
    refine wp_bind_get.mpr ?_
    rw [h₁.log_eq]
    exact wp_pure.mpr rfl
  refine hinstall.bind ?_
  rintro - k₂ rfl
  set log₁ : Log := { log with lh := ⟨0, block⟩ }
  have h₂ : Shows p log₁.dev log₁ ⟨disk, disk, fun _ => 0, fun _ => false, []⟩ k₂ := h₁
  refine (returns_clearLog h₂).bind ?_
  intro _ k₃ h₃
  have h₃ : Shows p (cleared log₁).dev (cleared log₁) ⟨disk, disk, fun _ => 0, fun _ => false, []⟩
    k₃ := h₃
  refine (returns_writeHead (S := {log.start}) h₃ (fun _ _ => ⟨rfl, rfl⟩)
    (fun _ => ⟨rfl, Nat.two_pow_pos 32⟩)
    ⟨by rw [Finset.card_singleton]; decide, fun n hn => absurd rfl hn⟩
    (Finset.mem_singleton_self _)).mono ?_
  intro _ k₄ h₄ b hb
  rcases h₄.repr.spare b hb with hdev' | ⟨-, -, hzero, -⟩
  · exact (h₄.repr.cached b _ ⟨hb, hdev', rfl⟩).refcnt
  · exact hzero

/-- Recovery with a fresh cache leaves every reference count at zero just when the log was
empty. -/
theorem recovery_clean_iff (p : P) (disk : Nat → Block) (log : Log) (hdev : log.dev = rootdev)
    (hn : headCount (disk log.start) ≤ logsize) :
    (∃ k', recoverFromLog p (fresh disk log) = .ok () k' ∧ ∀ b < nbuf, (k'.bc.buf b).refcnt = 0) ↔
      headCount (disk log.start) = 0 := by
  have hdev' : log.dev ≠ 0 := by rw [hdev]; decide
  constructor
  · rintro ⟨k', hrun, hclean⟩
    have htotal := (wp_recoverFromLog_total (p := p) hdev').of_ok hrun
    have hzero : refTotal k'.bc = 0 := by
      refine Finset.sum_eq_zero fun b hb => ?_
      rw [hclean b (Finset.mem_range.mp hb), Nat.cast_zero]
    rw [hzero, zero_eq_neg, ZMod.natCast_eq_zero_iff] at htotal
    have hsmall : headCount (disk log.start) < 2 ^ 32 := hn.trans_lt (by decide)
    exact Nat.eq_zero_of_dvd_of_lt htotal hsmall
  · intro hempty
    obtain ⟨⟨⟩, k', hrun, hclean⟩ :=
      returns_iff.mp (returns_recoverFromLog_empty (p := p) hdev' hempty)
    exact ⟨k', hrun, hclean⟩

/-- A disk with one committed block, whose home is block 50. -/
def oneBlockDisk : Nat → Block :=
  Function.update (fun _ _ => 0) 2 (encodeHead ⟨1, fun _ => 50⟩ fun _ => 0)

/-- The log of that disk before recovery. -/
def oneBlockLog : Log := ⟨2, logsize, 0, false, rootdev, ⟨0, fun _ => 0⟩⟩

/-- The log of a zeroed disk is empty. -/
theorem recovery_clean_iff_empty : headCount (fun _ : Nat => (0 : UInt8)) = 0 ∧
    ∃ k', recoverFromLog () (fresh (fun _ _ => 0) oneBlockLog) = .ok () k' ∧
      ∀ b < nbuf, (k'.bc.buf b).refcnt = 0 := by
  have hcount : headCount (fun _ : Nat => (0 : UInt8)) = 0 := by decide
  have hle : headCount (fun _ : Nat => (0 : UInt8)) ≤ logsize := by decide
  exact ⟨hcount, (recovery_clean_iff () (fun _ _ => 0) oneBlockLog rfl hle).mpr hcount⟩

/-- Recovery of one block returns with a count of `2 ^ 32 - 1`: its buffer can never be
recycled. -/
theorem recovery_underflows : ∃ k', recoverFromLog () (fresh oneBlockDisk oneBlockLog) = .ok () k' ∧
    ∃ b < nbuf, (k'.bc.buf b).blockno = 50 ∧ (k'.bc.buf b).refcnt = 2 ^ 32 - 1 := by
  have hrun : (match recoverFromLog () (fresh oneBlockDisk oneBlockLog) with
      | .ok _ k' => (List.range nbuf).any fun b =>
          (k'.bc.buf b).blockno = 50 ∧ (k'.bc.buf b).refcnt = 2 ^ 32 - 1
      | .error _ _ => false) = true := by
    decide +kernel
  split at hrun
  next k' hok =>
    obtain ⟨b, hb, hbuf⟩ := List.any_eq_true.mp hrun
    exact ⟨k', hok, b, List.mem_range.mp hb, of_decide_eq_true hbuf⟩
  · cases hrun

end Recovery

end Log
end Xv6
