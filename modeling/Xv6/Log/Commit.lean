import Mathlib.Tactic
import Xv6.Bio.Sequential
import Xv6.Lib.Bytes
import Xv6.Lib.Prog
import Xv6.Lib.Redo
import Xv6.Log.Ops

/-!
# Commit and recovery

The parts of `log.c` that move blocks between the log area and their home
locations.  One process runs them alone, so they are sequential programs over
the buffer cache and the in-memory log.

Main results:

- Theorem {lit}`returns_recoverFromLog`: recovery returns, and issues exactly the
  writes of a redo-log recovery.
- Theorem {lit}`returns_commit`: a commit returns, and issues exactly the writes
  of a redo-log commit.
-/

namespace Xv6
namespace Log

open Lib Bio Function

variable {P : Type}

/-! ## The header block -/

/-- `n` of a `struct logheader` in a block. -/
def headCount (blk : Block) : Nat :=
  getLE blk 0 4

/-- `block[i]` of a `struct logheader` in a block. -/
def headBlock (blk : Block) (i : Nat) : Nat :=
  getLE blk (4 + 4 * i) 4

/-- Store the in-memory header into a block. -/
def encodeHead (lh : Logheader) (blk : Block) : Block :=
  (List.range lh.n).foldl (fun blk i => putLE blk (4 + 4 * i) 4 (lh.block i))
    (putLE blk 0 4 lh.n)

/-- The log area as a redo log. -/
def redo (start size : Nat) : RedoLog Block :=
  ⟨start, size, headCount, headBlock⟩

/-- Storing block numbers keeps the count. -/
private theorem headCount_foldl (block : Nat → Nat) (is : List Nat) (blk : Block) :
    headCount (is.foldl (fun blk i => putLE blk (4 + 4 * i) 4 (block i)) blk) =
      headCount blk := by
  induction is generalizing blk with
  | nil => rfl
  | cons i is ih =>
    rw [List.foldl_cons, ih]
    exact getLE_putLE_of_disjoint (by omega)

/-- The count that is stored. -/
@[simp]
theorem headCount_encodeHead (lh : Logheader) (blk : Block) :
    headCount (encodeHead lh blk) = uint lh.n := by
  rw [encodeHead, headCount_foldl, headCount, getLE_putLE_same]
  rfl

/-- The block numbers that are stored. -/
theorem headBlock_encodeHead {lh : Logheader} (blk : Block) {i : Nat} (hi : i < lh.n) :
    headBlock (encodeHead lh blk) i = uint (lh.block i) := by
  obtain ⟨n, block⟩ := lh
  unfold encodeHead
  simp only at hi ⊢
  generalize putLE blk 0 4 n = start
  induction n with
  | zero => omega
  | succ n ih =>
    rw [List.range_succ, List.foldl_append]
    simp only [List.foldl_cons, List.foldl_nil, headBlock]
    by_cases heq : i = n
    · rw [heq, getLE_putLE_same]
      rfl
    · rw [getLE_putLE_of_disjoint (by omega)]
      exact ih (by omega)

/-! ## Programs -/

/-- The buffer cache and the log. -/
structure Kernel (P : Type) where
  bc : Bcache P Block
  log : Log

/-- Run a call of the cache. -/
def onCache {β : Type} (f : Bcache P Block → Except String (β × Bcache P Block)) :
    Prog (Kernel P) β := fun k =>
  match f k.bc with
  | .ok (a, bc) => .ok a { k with bc := bc }
  | .error e => .error e k

def bread (p : P) (dev blockno : Nat) : Prog (Kernel P) Nat :=
  onCache fun bc => Bio.bread bc p dev blockno

/-- The data of a buffer. -/
def bdata (b : Nat) : Prog (Kernel P) Block := do
  return ((← get).bc.buf b).data

/-- Overwrite the data of a buffer. -/
def setData (b : Nat) (data : Block) : Prog (Kernel P) Unit :=
  onCache fun bc => .ok ((), Bio.modify bc b data)

def bunpin (b : Nat) : Prog (Kernel P) Unit :=
  onCache fun bc => .ok ((), Bio.bunpin bc b)

section Code

variable [DecidableEq P] (p : P)

def bwrite (b : Nat) : Prog (Kernel P) Unit :=
  onCache fun bc => (Bio.bwrite bc p b).map ((), ·)

def brelse (b : Nat) : Prog (Kernel P) Unit :=
  onCache fun bc => (Bio.brelse bc p b).map ((), ·)

/-- The body of the loop in `install_trans`. -/
def installBlock (dev logBlock home : Nat) : Prog (Kernel P) Unit := do
  let lbuf ← bread p dev logBlock
  let dbuf ← bread p dev home
  setData dbuf (← bdata lbuf)
  bwrite p dbuf
  bunpin dbuf
  brelse p lbuf
  brelse p dbuf

/-- `install_trans`. -/
def installTrans : Prog (Kernel P) Unit := do
  let log := (← get).log
  forUpto (fun tail => installBlock p log.dev (log.start + tail + 1) (log.lh.block tail)) log.lh.n

/-- `read_head`. -/
def readHead : Prog (Kernel P) Unit := do
  let log := (← get).log
  let buf ← bread p log.dev log.start
  let blk ← bdata buf
  let n := headCount blk
  modify fun k => { k with log := { k.log with
    lh := ⟨n, fun i => if i < n then headBlock blk i else k.log.lh.block i⟩ } }
  brelse p buf

/-- `write_head`. -/
def writeHead : Prog (Kernel P) Unit := do
  let log := (← get).log
  let buf ← bread p log.dev log.start
  setData buf (encodeHead log.lh (← bdata buf))
  bwrite p buf
  brelse p buf

/-- `log.lh.n = 0`. -/
def clearLog : Prog (Kernel P) Unit :=
  modify fun k => { k with log := { k.log with lh := { k.log.lh with n := 0 } } }

/-- `recover_from_log`. -/
def recoverFromLog : Prog (Kernel P) Unit := do
  readHead p
  installTrans p
  clearLog
  writeHead p

/-- `initlog`. -/
def initlog (dev : Nat) (sb : Superblock) : Prog (Kernel P) Unit := do
  if 4 + 4 * logsize ≥ bsize then
    throw "initlog: too big logheader"
  else
    modify fun k => { k with
      log := { k.log with start := sb.logstart, size := sb.nlog, dev := dev } }
    recoverFromLog p

/-- The header of a log fits into a block, so `initlog` goes on to recover. -/
theorem initlog_eq (dev : Nat) (sb : Superblock) (k : Kernel P) :
    initlog p dev sb k = recoverFromLog p { k with
      log := { k.log with start := sb.logstart, size := sb.nlog, dev := dev } } := by
  unfold initlog
  rw [if_neg (by decide)]
  rfl

/-- The body of the loop in `write_log`. -/
def logBlock (dev target home : Nat) : Prog (Kernel P) Unit := do
  let tbuf ← bread p dev target
  let fbuf ← bread p dev home
  setData tbuf (← bdata fbuf)
  bwrite p tbuf
  brelse p fbuf
  brelse p tbuf

/-- `write_log`. -/
def writeLog : Prog (Kernel P) Unit := do
  let log := (← get).log
  forUpto (fun tail => logBlock p log.dev (log.start + tail + 1) (log.lh.block tail)) log.lh.n

/-- `commit`, up to the point at which the transaction counts as committed. -/
def commitHead : Prog (Kernel P) Unit := do
  writeLog p
  writeHead p

/-- `commit`. -/
def commit : Prog (Kernel P) Unit := do
  if (← get).log.lh.n > 0 then
    commitHead p
    installTrans p
    clearLog
    writeHead p

end Code

/-! ## The calls of the cache -/

/-- The cache represents the view `v`, and the log is `log`. -/
structure Shows (p : P) (dev : Nat) (log : Log) (v : View Block) (k : Kernel P) : Prop where
  log_eq : k.log = log
  repr : Repr p dev k.bc v

section Calls

variable {p : P} {dev b n : Nat} {log : Log} {v : View Block} {k : Kernel P}

/-- A successful call of the cache. -/
theorem returns_onCache {β : Type} {f : Bcache P Block → Except String (β × Bcache P Block)}
    {a : β} {bc : Bcache P Block} {Q : β → Kernel P → Prop} (hf : f k.bc = .ok (a, bc))
    (hQ : Q a { k with bc := bc }) : Returns (onCache f) k Q := by
  rw [returns_iff]
  exact ⟨a, { k with bc := bc }, by simp [onCache, hf], hQ⟩

/-- `bread` on a cache that represents a view. -/
theorem returns_bread {S : Finset Nat} (h : Shows p dev log v k) (hsafe : v.Safe)
    (hroom : v.Room S) (hn : n ∈ S) (hheld : v.held n = false) :
    Returns (bread p dev n) k fun b k' => Shows p dev log (v.bread n) k' ∧
      Tagged k'.bc dev b n ∧
      ∀ b' n', Tagged k.bc dev b' n' → v.refs n' ≠ 0 → Tagged k'.bc dev b' n' := by
  obtain ⟨b, bc, hread, hrepr, htag, hkeep⟩ := h.repr.bread hsafe hroom hn hheld
  exact returns_onCache hread ⟨⟨h.log_eq, hrepr⟩, htag, hkeep⟩

/-- `bdata` on a cache that represents a view. -/
theorem returns_bdata (h : Shows p dev log v k) (htag : Tagged k.bc dev b n)
    (hheld : v.held n = true) : Returns (bdata b) k fun x k' => x = v.data n ∧ k' = k :=
  wp_bind_get.mpr (wp_pure.mpr ⟨(h.repr.held_buf htag hheld).2.2, rfl⟩)

/-- `setData` on a cache that represents a view. -/
theorem returns_setData (h : Shows p dev log v k) (htag : Tagged k.bc dev b n)
    (hheld : v.held n = true) (data : Block) :
    Returns (setData b data) k fun _ k' => Shows p dev log (v.modify n data) k' ∧
      ∀ b' n', Tagged k.bc dev b' n' → Tagged k'.bc dev b' n' := by
  exact returns_onCache rfl ⟨⟨h.log_eq, h.repr.modify htag hheld data⟩,
    fun _ _ => tagged_modify.mpr⟩

/-- `bunpin` on a cache that represents a view. -/
theorem returns_bunpin (h : Shows p dev log v k) (htag : Tagged k.bc dev b n) :
    Returns (bunpin b) k fun _ k' => Shows p dev log (v.bunpin n) k' ∧
      ∀ b' n', Tagged k.bc dev b' n' → Tagged k'.bc dev b' n' := by
  exact returns_onCache rfl ⟨⟨h.log_eq, h.repr.bunpin htag⟩, fun _ _ => tagged_bunpin.mpr⟩

variable [DecidableEq P]

/-- `bwrite` on a cache that represents a view. -/
theorem returns_bwrite (h : Shows p dev log v k) (htag : Tagged k.bc dev b n)
    (hheld : v.held n = true) :
    Returns (bwrite p b) k fun _ k' => Shows p dev log (v.bwrite n) k' ∧
      ∀ b' n', Tagged k.bc dev b' n' → Tagged k'.bc dev b' n' := by
  obtain ⟨bc, hwrite, hrepr, hbuf⟩ := h.repr.bwrite htag hheld
  have hcall : (Bio.bwrite k.bc p b).map ((), ·) = .ok ((), bc) := by rw [hwrite]; rfl
  refine returns_onCache hcall ⟨⟨h.log_eq, hrepr⟩, ?_⟩
  intro b' n' htag'
  simpa only [Tagged, hbuf] using htag'

/-- `brelse` on a cache that represents a view. -/
theorem returns_brelse (h : Shows p dev log v k) (htag : Tagged k.bc dev b n)
    (hheld : v.held n = true) :
    Returns (brelse p b) k fun _ k' => Shows p dev log (v.brelse n) k' ∧
      ∀ b' n', Tagged k.bc dev b' n' → Tagged k'.bc dev b' n' := by
  obtain ⟨bc, hrelse, hrepr, htags⟩ := h.repr.brelse htag hheld
  have hcall : (Bio.brelse k.bc p b).map ((), ·) = .ok ((), bc) := by rw [hrelse]; rfl
  refine returns_onCache hcall ⟨⟨h.log_eq, hrepr⟩, ?_⟩
  intro b' n' htag'
  exact (htags b' n').mpr htag'

end Calls

/-! ## One block -/

/-- Copy a log block home, write it there and drop a pin of it. -/
@[simps -fullyApplied]
def install (v : View Block) (l d : Nat) : View Block where
  data := update v.data d (v.data l)
  disk := update v.disk d (v.data l)
  refs := update v.refs d (uint (v.refs d + (2 ^ 32 - 1)))
  held := v.held
  issued := v.issued ++ [(d, v.data l)]

/-- Copy a block to a log block and write that. -/
@[simps -fullyApplied]
def store (v : View Block) (l d : Nat) : View Block where
  data := update v.data l (v.data d)
  disk := update v.disk l (v.data d)
  refs := v.refs
  held := v.held
  issued := v.issued ++ [(l, v.data d)]

/-- Overwrite a block and write it. -/
@[simps -fullyApplied]
def put (v : View Block) (n : Nat) (x : Block) : View Block where
  data := update v.data n x
  disk := update v.disk n x
  refs := v.refs
  held := v.held
  issued := v.issued ++ [(n, x)]

/-- Taking and dropping a reference cancel out, even across the overflow. -/
theorem uint_pred_succ {x : Nat} (hx : x < 2 ^ 32) :
    uint (uint (x + 1) + 4294967295) = x := by
  unfold uint
  omega

section OneBlock

variable {v : View Block} {l d n : Nat}

/-- What the calls in a round of `install_trans` come to. -/
theorem install_eq (hidle : v.Idle) (hne : l ≠ d) :
    ((((((v.bread l).bread d).modify d (v.data l)).bwrite d).bunpin d).brelse l).brelse d =
      install v l d := by
  have hl := uint_pred_succ (hidle l).2
  have hd := uint_pred_succ (hidle d).2
  ext1
  · rfl
  · simp
  · funext m
    obtain rfl | hmd := eq_or_ne m d
    · simp [hne.symm, hd]
    · obtain rfl | hml := eq_or_ne m l
      · simp [hne, hl]
      · simp [hmd, hml]
  · funext m
    by_cases hmd : m = d
    · simp [hmd, (hidle d).1]
    · by_cases hml : m = l
      · simp [hml, hne, (hidle l).1]
      · simp [hmd, hml]
  · simp

/-- What the calls in a round of `write_log` come to. -/
theorem store_eq (hidle : v.Idle) (hne : l ≠ d) :
    (((((v.bread l).bread d).modify l (v.data d)).bwrite l).brelse d).brelse l =
      store v l d := by
  have hl := uint_pred_succ (hidle l).2
  have hd := uint_pred_succ (hidle d).2
  ext1
  · rfl
  · simp
  · funext m
    obtain rfl | hmd := eq_or_ne m d
    · simp [hne.symm, hd]
    · obtain rfl | hml := eq_or_ne m l
      · simp [hne, hl]
      · simp [hmd, hml]
  · funext m
    by_cases hml : m = l
    · simp [hml, (hidle l).1]
    · by_cases hmd : m = d
      · simp [hmd, hne.symm, (hidle d).1]
      · simp [hmd, hml]
  · simp

/-- What the calls in `write_head` come to. -/
theorem put_eq (hidle : v.Idle) (x : Block) :
    (((v.bread n).modify n x).bwrite n).brelse n = put v n x := by
  have hn := uint_pred_succ (hidle n).2
  ext1
  · rfl
  · simp
  · funext m
    obtain rfl | hmn := eq_or_ne m n
    · simp [hn]
    · simp [hmn]
  · funext m
    by_cases hmn : m = n
    · simp [hmn, (hidle n).1]
    · simp [hmn]
  · simp

/-- Reading a block changes nothing. -/
theorem bread_brelse (hidle : v.Idle) : (v.bread n).brelse n = v := by
  have hn := uint_pred_succ (hidle n).2
  ext1
  · rfl
  · rfl
  · funext m
    obtain rfl | hmn := eq_or_ne m n
    · simp [hn]
    · simp [hmn]
  · funext m
    by_cases hmn : m = n
    · simp [hmn, (hidle n).1]
    · simp [hmn]
  · rfl

variable [DecidableEq P] {p : P} {dev : Nat} {log : Log} {k : Kernel P} {S : Finset Nat}

/-- The body of the loop in `install_trans`.  The log block must not be
referenced, so that reading it leaves its buffer in place for the second
`bread`. -/
theorem returns_installBlock (h : Shows p dev log v k) (hsafe : v.Safe) (hidle : v.Idle)
    (hroom : v.Room S) (hl : l ∈ S) (hd : d ∈ S) (hne : l ≠ d) (hzero : v.refs l = 0) :
    Returns (installBlock p dev l d) k fun _ => Shows p dev log (install v l d) := by
  have hone : uint (v.refs l + 1) = 1 := by rw [hzero]; decide
  refine (returns_bread h hsafe hroom hl (hidle l).1).bind ?_
  rintro lbuf k₁ ⟨h₁, htl, -⟩
  refine (returns_bread h₁ (hsafe.bread (by omega)) (hroom.bread hl) hd
    (by simp [hne.symm, (hidle d).1])).bind ?_
  rintro dbuf k₂ ⟨h₂, htd, hkeep⟩
  have htl₂ := hkeep lbuf l htl (by simp [hone])
  refine (returns_bdata h₂ htl₂ (by simp [hne])).bind ?_
  rintro x k₂' ⟨rfl, rfl⟩
  refine (returns_setData h₂ htd (by simp) _).bind ?_
  rintro - k₃ ⟨h₃, ht₃⟩
  refine (returns_bwrite h₃ (ht₃ _ _ htd) (by simp)).bind ?_
  rintro - k₄ ⟨h₄, ht₄⟩
  refine (returns_bunpin h₄ (ht₄ _ _ (ht₃ _ _ htd))).bind ?_
  rintro - k₅ ⟨h₅, ht₅⟩
  refine (returns_brelse h₅ (ht₅ _ _ (ht₄ _ _ (ht₃ _ _ htl₂)))
    (by simp [hne])).bind ?_
  rintro - k₆ ⟨h₆, ht₆⟩
  refine (returns_brelse h₆ (ht₆ _ _ (ht₅ _ _ (ht₄ _ _ (ht₃ _ _ htd))))
    (by simp [hne.symm])).mono ?_
  rintro - k₇ ⟨h₇, -⟩
  rw [← install_eq hidle hne]
  exact h₇

/-- The body of the loop in `write_log`. -/
theorem returns_logBlock (h : Shows p dev log v k) (hsafe : v.Safe) (hidle : v.Idle)
    (hroom : v.Room S) (hl : l ∈ S) (hd : d ∈ S) (hne : l ≠ d) (hzero : v.refs l = 0) :
    Returns (logBlock p dev l d) k fun _ => Shows p dev log (store v l d) := by
  have hone : uint (v.refs l + 1) = 1 := by rw [hzero]; decide
  refine (returns_bread h hsafe hroom hl (hidle l).1).bind ?_
  rintro tbuf k₁ ⟨h₁, htl, -⟩
  refine (returns_bread h₁ (hsafe.bread (by omega)) (hroom.bread hl) hd
    (by simp [hne.symm, (hidle d).1])).bind ?_
  rintro fbuf k₂ ⟨h₂, htd, hkeep⟩
  have htl₂ := hkeep tbuf l htl (by simp [hone])
  refine (returns_bdata h₂ htd (by simp)).bind ?_
  rintro x k₂' ⟨rfl, rfl⟩
  refine (returns_setData h₂ htl₂ (by simp [hne]) _).bind ?_
  rintro - k₃ ⟨h₃, ht₃⟩
  refine (returns_bwrite h₃ (ht₃ _ _ htl₂) (by simp [hne])).bind ?_
  rintro - k₄ ⟨h₄, ht₄⟩
  refine (returns_brelse h₄ (ht₄ _ _ (ht₃ _ _ htd))
    (by simp)).bind ?_
  rintro - k₅ ⟨h₅, ht₅⟩
  refine (returns_brelse h₅ (ht₅ _ _ (ht₄ _ _ (ht₃ _ _ htl₂)))
    (by simp [hne])).mono ?_
  rintro - k₆ ⟨h₆, -⟩
  rw [← store_eq hidle hne]
  exact h₆

/-- `write_head`. -/
theorem returns_writeHead (h : Shows p log.dev log v k) (hsafe : v.Safe) (hidle : v.Idle)
    (hroom : v.Room S) (hstart : log.start ∈ S) :
    Returns (writeHead p) k fun _ => Shows p log.dev log
      (put v log.start (encodeHead log.lh (v.data log.start))) := by
  have hlog := h.log_eq
  refine wp_bind_get.mpr ?_
  rw [hlog]
  refine (returns_bread h hsafe hroom hstart (hidle _).1).bind ?_
  rintro b k₁ ⟨h₁, ht, -⟩
  refine (returns_bdata h₁ ht (by simp)).bind ?_
  rintro x k₁' ⟨rfl, rfl⟩
  refine (returns_setData h₁ ht (by simp) _).bind ?_
  rintro - k₂ ⟨h₂, ht₂⟩
  refine (returns_bwrite h₂ (ht₂ _ _ ht) (by simp)).bind ?_
  rintro - k₃ ⟨h₃, ht₃⟩
  refine (returns_brelse h₃ (ht₃ _ _ (ht₂ _ _ ht))
    (by simp)).mono ?_
  rintro - k₄ ⟨h₄, -⟩
  rw [← put_eq hidle]
  exact h₄

/-- `read_head`. -/
theorem returns_readHead (h : Shows p log.dev log v k) (hsafe : v.Safe) (hidle : v.Idle)
    (hroom : v.Room S) (hstart : log.start ∈ S) :
    Returns (readHead p) k fun _ => Shows p log.dev { log with
      lh := ⟨headCount (v.data log.start), fun i => if i < headCount (v.data log.start)
        then headBlock (v.data log.start) i else log.lh.block i⟩ } v := by
  have hlog := h.log_eq
  refine wp_bind_get.mpr ?_
  rw [hlog]
  refine (returns_bread h hsafe hroom hstart (hidle _).1).bind ?_
  rintro b k₁ ⟨h₁, ht, -⟩
  refine (returns_bdata h₁ ht (by simp)).bind ?_
  rintro x k₁' ⟨rfl, rfl⟩
  refine Wp.bind (Q := fun _ k₂ => Shows p log.dev { log with
      lh := ⟨headCount (v.data log.start), fun i => if i < headCount (v.data log.start)
        then headBlock (v.data log.start) i else log.lh.block i⟩ } (v.bread log.start) k₂ ∧
      Tagged k₂.bc log.dev b log.start) ?_ ?_
  · refine wp_modify.mpr ⟨⟨?_, h₁.repr⟩, ht⟩
    simp only [h₁.log_eq]
    rfl
  · rintro - k₂ ⟨h₂, ht₂⟩
    refine (returns_brelse h₂ ht₂ (by simp)).mono ?_
    rintro - k₃ ⟨h₃, -⟩
    rw [bread_brelse hidle] at h₃
    exact h₃

end OneBlock

/-! ## The loops -/

/-- The logged blocks are distinct, lie outside the log area and fit into it. -/
structure Fits (log : Log) : Prop where
  room : log.lh.n < log.size
  distinct : log.lh.Distinct
  outside : ∀ i < log.lh.n, ¬(redo log.start log.size).Area (log.lh.block i)

/-- The referenced blocks and the logged ones are in `T`, which lies outside the
log area and leaves one buffer free. -/
structure Covers (log : Log) (T : Finset Nat) (v : View Block) : Prop where
  logged : log.lh.logged ⊆ T
  card : T.card < nbuf
  outside : ∀ n ∈ T, ¬(redo log.start log.size).Area n
  refs : ∀ n, v.refs n ≠ 0 → n ∈ T

/-- The view after the first `i` of the blocks `src` have been copied to the blocks
`dst` and written there. -/
structure Copied (src dst : Nat → Nat) (v : View Block) (i : Nat) (w : View Block) : Prop where
  same : ∀ n, (∀ j < i, dst j ≠ n) → w.data n = v.data n ∧ w.disk n = v.disk n
  copied : ∀ j < i, w.data (dst j) = v.data (src j) ∧ w.disk (dst j) = v.data (src j)
  held : w.held = v.held
  issued : w.issued = v.issued ++ (List.range i).map fun j => (dst j, v.data (src j))
  disk : w.disk = applyWrites v.disk ((List.range i).map fun j => (dst j, v.data (src j)))

/-- The view after the first `i` rounds of `install_trans`. -/
structure Installed (log : Log) (v : View Block) (i : Nat) (w : View Block) : Prop
    extends Copied (log.start + 1 + ·) log.lh.block v i w where
  kept : ∀ n, (∀ j < i, log.lh.block j ≠ n) → w.refs n = v.refs n
  dropped : ∀ j < i, w.refs (log.lh.block j) = uint (v.refs (log.lh.block j) + (2 ^ 32 - 1))

/-- The view after the first `i` rounds of `write_log`. -/
structure Stored (log : Log) (v : View Block) (i : Nat) (w : View Block) : Prop
    extends Copied log.lh.block (log.start + 1 + ·) v i w where
  refs : w.refs = v.refs

section Copying

variable {src dst : Nat → Nat} {v w : View Block} {i : Nat}

/-- Before the first round. -/
theorem copied_zero : Copied src dst v 0 v :=
  ⟨fun _ _ => ⟨rfl, rfl⟩, fun _ hj => by omega, rfl, by simp, by simp⟩

/-- One more block is copied. -/
theorem Copied.succ (h : Copied src dst v i w) (hsrc : ∀ j < i, dst j ≠ src i)
    (hfresh : ∀ j < i, dst j ≠ dst i) (refs : Nat → Nat) :
    Copied src dst v (i + 1) { put w (dst i) (w.data (src i)) with refs := refs } := by
  have hdata := (h.same _ hsrc).1
  refine ⟨?_, ?_, h.held, ?_, ?_⟩
  · intro n hn
    have hne : n ≠ dst i := (hn i (by omega)).symm
    simpa [hne] using h.same n fun j hj => hn j (by omega)
  · intro j hj
    obtain rfl | hji := eq_or_ne j i
    · simp [hdata]
    · simpa [hfresh j (by omega)] using h.copied j (by omega)
  · simp [hdata, h.issued, List.range_succ]
  · simp [hdata, h.disk, List.range_succ, applyWrites_append]

/-- A copied block is on disk. -/
theorem Copied.data_eq (h : Copied src dst v i w) {n : Nat}
    (hother : (∀ j < i, dst j ≠ n) → v.data n = v.disk n) : w.data n = w.disk n := by
  by_cases hmem : ∃ j < i, dst j = n
  · obtain ⟨j, hj, rfl⟩ := hmem
    rw [(h.copied j hj).1, (h.copied j hj).2]
  · have hnot : ∀ j < i, dst j ≠ n := fun j hj heq => hmem ⟨j, hj, heq⟩
    rw [(h.same n hnot).1, (h.same n hnot).2, hother hnot]

/-- Copying keeps the unreferenced blocks on disk. -/
theorem Copied.safe (h : Copied src dst v i w) (hsafe : v.Safe) (hidle : v.Idle)
    (hkept : ∀ n, (∀ j < i, dst j ≠ n) → w.refs n = v.refs n) : w.Safe := by
  intro n hn
  refine ⟨by rw [h.held]; exact (hidle n).1, h.data_eq fun hnot => ?_⟩
  exact (hsafe n (hkept n hnot ▸ hn)).2

end Copying

section Loops

variable {log : Log} {v w : View Block} {i : Nat} {T : Finset Nat}

/-- A log block is not a home block. -/
theorem Fits.block_ne (hfits : Fits log) {j : Nat} (hi : i < log.lh.n) (hj : j < log.lh.n) :
    log.lh.block j ≠ log.start + 1 + i := by
  intro heq
  apply hfits.outside j hj
  have := hfits.room
  constructor <;> simp only [redo] <;> omega

/-- There is room for the referenced blocks and one more. -/
theorem Covers.room (hcov : Covers log T v) (n : Nat) : v.Room (insert n T) := by
  refine ⟨(Finset.card_insert_le _ _).trans hcov.card, ?_⟩
  intro m hm
  exact Finset.mem_insert_of_mem (hcov.refs m hm)

/-- The log blocks and the header are not referenced. -/
theorem Covers.area (hcov : Covers log T v) {n : Nat}
    (harea : (redo log.start log.size).Area n) : v.refs n = 0 := by
  by_contra hne
  exact hcov.outside n (hcov.refs n hne) harea

/-- The home blocks are covered. -/
theorem Covers.home (hcov : Covers log T v) (hi : i < log.lh.n) : log.lh.block i ∈ T :=
  hcov.logged (Logheader.mem_logged.mpr ⟨i, hi, rfl⟩)

/-- The logged blocks cover themselves. -/
theorem Fits.covers (hfits : Fits log) (hbuf : log.size ≤ nbuf)
    (hrefs : ∀ n, v.refs n ≠ 0 → n ∈ log.lh.logged) : Covers log log.lh.logged v := by
  refine ⟨Finset.Subset.refl _, ?_, ?_, hrefs⟩
  · rw [hfits.distinct.card_logged]
    exact hfits.room.trans_le hbuf
  · intro n hn
    obtain ⟨i, hi, rfl⟩ := Logheader.mem_logged.mp hn
    exact hfits.outside i hi

/-- The log blocks are in the log area. -/
theorem Fits.area_log (hfits : Fits log) (hi : i < log.lh.n) :
    (redo log.start log.size).Area (log.start + 1 + i) := by
  have := hfits.room
  constructor <;> simp only [redo] <;> omega

/-- The header is in the log area. -/
theorem Fits.area_start (hfits : Fits log) : (redo log.start log.size).Area log.start := by
  have := hfits.room
  constructor <;> simp only [redo] <;> omega

/-- One round of `install_trans`. -/
theorem Installed.succ (h : Installed log v i w) (hfits : Fits log) (hi : i < log.lh.n) :
    Installed log v (i + 1) (install w (log.start + 1 + i) (log.lh.block i)) := by
  have hfresh : ∀ j < i, log.lh.block j ≠ log.lh.block i := by
    intro j hj heq
    have := hfits.distinct j (by omega) i hi heq
    omega
  refine ⟨h.toCopied.succ (fun j hj => hfits.block_ne hi (by omega)) hfresh _, ?_, ?_⟩
  · intro n hn
    have hne : n ≠ log.lh.block i := (hn i (by omega)).symm
    simpa [hne] using h.kept n fun j hj => hn j (by omega)
  · intro j hj
    obtain rfl | hji := eq_or_ne j i
    · simp [h.kept _ hfresh]
    · simpa [hfresh j (by omega)] using h.dropped j (by omega)

/-- `install_trans` keeps the unreferenced blocks on disk. -/
theorem Installed.safe (h : Installed log v i w) (hsafe : v.Safe) (hidle : v.Idle) : w.Safe :=
  h.toCopied.safe hsafe hidle h.kept

/-- `install_trans` holds no block. -/
theorem Installed.idle (h : Installed log v i w) (hidle : v.Idle) : w.Idle := by
  intro n
  refine ⟨by rw [h.held]; exact (hidle n).1, ?_⟩
  by_cases hmem : ∃ j < i, log.lh.block j = n
  · obtain ⟨j, hj, rfl⟩ := hmem
    rw [h.dropped j hj]
    exact uint_lt _
  · rw [h.kept n fun j hj heq => hmem ⟨j, hj, heq⟩]
    exact (hidle n).2

/-- `install_trans` adds no reference. -/
theorem Installed.covers (h : Installed log v i w) (hcov : Covers log T v)
    (hi : i ≤ log.lh.n) : Covers log T w := by
  refine ⟨hcov.logged, hcov.card, hcov.outside, ?_⟩
  intro n hn
  by_cases hmem : ∃ j < i, log.lh.block j = n
  · obtain ⟨j, hj, rfl⟩ := hmem
    exact hcov.home (by omega)
  · rw [h.kept n fun j hj heq => hmem ⟨j, hj, heq⟩] at hn
    exact hcov.refs n hn

/-- One round of `write_log`. -/
theorem Stored.succ (h : Stored log v i w) (hfits : Fits log) (hi : i < log.lh.n) :
    Stored log v (i + 1) (store w (log.start + 1 + i) (log.lh.block i)) :=
  ⟨h.toCopied.succ (fun j hj => (hfits.block_ne (by omega) hi).symm) (fun j hj => by omega) _,
    h.refs⟩

/-- `write_log` keeps the unreferenced blocks on disk. -/
theorem Stored.safe (h : Stored log v i w) (hsafe : v.Safe) (hidle : v.Idle) : w.Safe :=
  h.toCopied.safe hsafe hidle fun n _ => congrFun h.refs n

/-- `write_log` holds no block. -/
theorem Stored.idle (h : Stored log v i w) (hidle : v.Idle) : w.Idle := by
  intro n
  rw [h.held, h.refs]
  exact hidle n

/-- `write_log` adds no reference. -/
theorem Stored.covers (h : Stored log v i w) (hcov : Covers log T v) : Covers log T w := by
  refine ⟨hcov.logged, hcov.card, hcov.outside, ?_⟩
  intro n hn
  rw [h.refs] at hn
  exact hcov.refs n hn

variable [DecidableEq P] {p : P} {k : Kernel P}

/-- `install_trans`. -/
theorem returns_installTrans (h : Shows p log.dev log v k) (hfits : Fits log) (hsafe : v.Safe)
    (hidle : v.Idle) (hcov : Covers log T v) :
    Returns (installTrans p) k fun _ k' => ∃ w, Shows p log.dev log w k' ∧
      Installed log v log.lh.n w := by
  have hlog := h.log_eq
  refine wp_bind_get.mpr ?_
  rw [hlog]
  apply wp_forUpto fun i k' => ∃ w, Shows p log.dev log w k' ∧ Installed log v i w
  · exact ⟨v, h, copied_zero, fun _ _ => rfl, fun _ hj => by omega⟩
  · rintro i hi t ⟨w, ht, hw⟩
    have hcovw := hw.covers hcov hi.le
    have hnum : log.start + i + 1 = log.start + 1 + i := by omega
    rw [hnum]
    refine (returns_installBlock ht (hw.safe hsafe hidle) (hw.idle hidle)
      (hcovw.room (log.start + 1 + i)) (Finset.mem_insert_self _ _)
      (Finset.mem_insert_of_mem (hcov.home hi)) (hfits.block_ne hi hi).symm
      (hcovw.area (hfits.area_log hi))).mono ?_
    intro _ k' hk'
    exact ⟨_, hk', hw.succ hfits hi⟩

/-- `write_log`. -/
theorem returns_writeLog (h : Shows p log.dev log v k) (hfits : Fits log) (hsafe : v.Safe)
    (hidle : v.Idle) (hcov : Covers log T v) :
    Returns (writeLog p) k fun _ k' => ∃ w, Shows p log.dev log w k' ∧
      Stored log v log.lh.n w := by
  have hlog := h.log_eq
  refine wp_bind_get.mpr ?_
  rw [hlog]
  apply wp_forUpto fun i k' => ∃ w, Shows p log.dev log w k' ∧ Stored log v i w
  · exact ⟨v, h, copied_zero, rfl⟩
  · rintro i hi t ⟨w, ht, hw⟩
    have hcovw := hw.covers hcov
    have hnum : log.start + i + 1 = log.start + 1 + i := by omega
    rw [hnum]
    refine (returns_logBlock ht (hw.safe hsafe hidle) (hw.idle hidle)
      (hcovw.room (log.start + 1 + i)) (Finset.mem_insert_self _ _)
      (Finset.mem_insert_of_mem (hcov.home hi)) (hfits.block_ne hi hi).symm
      (hcovw.area (hfits.area_log hi))).mono ?_
    intro _ k' hk'
    exact ⟨_, hk', hw.succ hfits hi⟩

end Loops

/-! ## Whole transactions -/

/-- The header block with its count set to zero. -/
def clearHead (blk : Block) : Block :=
  putLE blk 0 4 0

/-- The count of a cleared header. -/
theorem headCount_clearHead (blk : Block) : headCount (clearHead blk) = 0 :=
  getLE_putLE_same blk 0 4 0

/-- The log after `log.lh.n = 0`. -/
def cleared (log : Log) : Log :=
  { log with lh := { log.lh with n := 0 } }

/-- The log after `read_head` of the block `blk`. -/
def headRead (log : Log) (blk : Block) : Log :=
  { log with lh := ⟨headCount blk, fun i => if i < headCount blk
    then headBlock blk i else log.lh.block i⟩ }

/-- Writing a block keeps the unreferenced blocks on disk. -/
theorem put_safe {v : View Block} {n : Nat} {x : Block} (hsafe : v.Safe) : (put v n x).Safe := by
  intro m hm
  obtain ⟨hheld, hdata⟩ := hsafe m hm
  refine ⟨hheld, ?_⟩
  by_cases heq : m = n
  · simp [heq]
  · simpa [heq] using hdata

/-- Writing a block keeps all blocks on disk. -/
theorem put_data_eq {v : View Block} {n : Nat} {x : Block} (heq : v.data = v.disk) :
    (put v n x).data = (put v n x).disk := by
  simp [heq]

section Transactions

variable {p : P} {log : Log} {v : View Block} {k : Kernel P} {T : Finset Nat}

/-- `log.lh.n = 0`. -/
theorem returns_clearLog (h : Shows p log.dev log v k) :
    Returns clearLog k fun _ => Shows p log.dev (cleared log) v := by
  refine wp_modify.mpr ⟨?_, h.repr⟩
  simp only [h.log_eq]
  rfl

/-- A valid header on disk is read into a log that fits. -/
theorem fits_headRead (hvalid : (redo log.start log.size).Valid v.disk)
    (hstart : v.data log.start = v.disk log.start) : Fits (headRead log (v.data log.start)) := by
  have hblock : ∀ i < headCount (v.disk log.start),
      (headRead log (v.data log.start)).lh.block i = headBlock (v.disk log.start) i := by
    intro i hi
    simp [headRead, hstart, hi]
  have hcount : (headRead log (v.data log.start)).lh.n = headCount (v.disk log.start) := by
    simp [headRead, hstart]
  constructor
  · rw [hcount]
    exact hvalid.fits
  · intro i hi j hj heq
    rw [hcount] at hi hj
    rw [hblock i hi, hblock j hj] at heq
    exact hvalid.distinct i hi j hj heq
  · intro i hi
    rw [hcount] at hi
    rw [hblock i hi]
    exact hvalid.outside i hi

variable [DecidableEq P]

/-- Recovery returns.  It issues exactly the writes of a redo-log recovery, and
leaves every block as it is on disk.  A home block that it has installed is left
with a reference count of `2 ^ 32 - 1`. -/
theorem returns_recoverFromLog (h : Shows p log.dev log v k) (hbuf : log.size ≤ nbuf)
    (hvalid : (redo log.start log.size).Valid v.disk) (hidle : v.Idle)
    (hrefs : ∀ n, v.refs n = 0) (hclean : v.data = v.disk) :
    Returns (recoverFromLog p) k fun _ k' => ∃ w lh,
      Shows p log.dev { log with lh := lh } w k' ∧ lh.n = 0 ∧
      w.issued = v.issued ++
        (redo log.start log.size).recoveryWrites v.disk (clearHead (v.disk log.start)) ∧
      w.disk = applyWrites v.disk
        ((redo log.start log.size).recoveryWrites v.disk (clearHead (v.disk log.start))) ∧
      w.data = w.disk ∧ w.held = v.held ∧
      ∀ n, w.refs n = if ∃ i < (redo log.start log.size).pending v.disk,
        (redo log.start log.size).homeOf v.disk i = n then 2 ^ 32 - 1 else 0 := by
  set L := redo log.start log.size with hL
  set log₁ := headRead log (v.data log.start) with hlog₁
  have hsafe : v.Safe := fun n _ => ⟨(hidle n).1, by rw [hclean]⟩
  have hfits : Fits log₁ := fits_headRead hvalid (by rw [hclean])
  have hcov : Covers log₁ log₁.lh.logged v := hfits.covers hbuf fun n hn => (hn (hrefs n)).elim
  refine (returns_readHead (S := {log.start}) h hsafe hidle
    ⟨by rw [Finset.card_singleton]; decide, fun n hn => (hn (hrefs n)).elim⟩
    (Finset.mem_singleton_self _)).bind ?_
  rintro - k₁ h₁
  have h₁ : Shows p log₁.dev log₁ v k₁ := h₁
  refine (returns_installTrans h₁ hfits hsafe hidle hcov).bind ?_
  rintro - k₂ ⟨w, h₂, hw⟩
  refine (returns_clearLog h₂).bind ?_
  rintro - k₃ h₃
  have h₃ : Shows p (cleared log₁).dev (cleared log₁) w k₃ := h₃
  refine (returns_writeHead h₃ (hw.safe hsafe hidle) (hw.idle hidle)
    ((hw.covers hcov le_rfl).room log.start) (Finset.mem_insert_self _ _)).mono ?_
  intro _ k₄ h₄
  -- The header block itself is not among the installed blocks.
  have hhead : w.data log.start = v.disk log.start := by
    rw [(hw.same log.start ?_).1, hclean]
    intro j hj heq
    exact hfits.outside j hj (heq ▸ hfits.area_start)
  have hn : log₁.lh.n = L.pending v.disk := by
    simp [hlog₁, headRead, hclean, RedoLog.pending, hL, redo]
  have hblock : ∀ j < L.pending v.disk, log₁.lh.block j = L.homeOf v.disk j := by
    intro j hj
    simp only [RedoLog.pending, hL, redo] at hj
    simp [hlog₁, headRead, hclean, RedoLog.homeOf, hL, redo, hj]
  have hwrites : ((List.range log₁.lh.n).map fun j =>
      (log₁.lh.block j, v.data (log₁.start + 1 + j))) =
        (List.range (L.pending v.disk)).map fun j =>
          (L.homeOf v.disk j, v.disk (L.start + 1 + j)) := by
    rw [hn]
    apply List.map_congr_left
    intro j hj
    rw [hblock j (List.mem_range.mp hj), hclean]
    rfl
  have hclear : encodeHead (cleared log₁).lh (w.data log.start) = clearHead (v.disk log.start) := by
    rw [hhead]
    rfl
  refine ⟨_, _, h₄, rfl, ?_, ?_, ?_, ?_, ?_⟩
  · simp only [put, hw.issued, hwrites, RedoLog.recoveryWrites, List.append_assoc]
    rw [show (cleared log₁).start = log.start from rfl, hclear]
    rfl
  · simp only [put, hw.disk, hwrites, RedoLog.recoveryWrites, applyWrites_append]
    rw [show (cleared log₁).start = log.start from rfl, hclear]
    rfl
  · exact put_data_eq (funext fun m => hw.data_eq fun _ => by rw [hclean])
  · exact hw.held
  · intro m
    simp only [← hn]
    split
    next hmem =>
      obtain ⟨j, hj, hjm⟩ := hmem
      rw [← hblock j (by rw [← hn]; exact hj)] at hjm
      rw [← hjm]
      simp only [put, hw.dropped j hj, hrefs]
      decide
    next hnot =>
      have hkept := hw.kept m fun j hj heq => hnot ⟨j, hj, by
        rw [← hblock j (by rw [← hn]; exact hj)]
        exact heq⟩
      exact hkept.trans (hrefs m)

/-- An empty group commits without touching the disk. -/
theorem commit_empty (hn : k.log.lh.n = 0) : commit p k = .ok () k := by
  change (if k.log.lh.n > 0 then _ else pure () : Prog (Kernel P) Unit) k = _
  rw [if_neg (by omega)]
  rfl

/-- The first half of a commit issues the writes of a redo-log commit up to its
header, and changes the log area only. -/
theorem returns_commitHead (h : Shows p log.dev log v k) (hfits : Fits log) (hsafe : v.Safe)
    (hidle : v.Idle) (hcov : Covers log T v) :
    Returns (commitHead p) k fun _ k' => ∃ w, Shows p log.dev log w k' ∧ w.Safe ∧ w.Idle ∧
      w.refs = v.refs ∧
      w.issued = v.issued ++ (redo log.start log.size).commitWrites log.lh.n log.lh.block v.data
        (encodeHead log.lh (v.data log.start)) ∧
      w.disk = applyWrites v.disk ((redo log.start log.size).commitWrites log.lh.n log.lh.block
        v.data (encodeHead log.lh (v.data log.start))) ∧
      (∀ m, v.data m = v.disk m → w.data m = w.disk m) ∧
      w.data log.start = encodeHead log.lh (v.data log.start) ∧
      ∀ j < log.lh.n, w.data (log.start + 1 + j) = v.data (log.lh.block j) := by
  refine (returns_writeLog h hfits hsafe hidle hcov).bind ?_
  rintro - k₁ ⟨w, h₁, hw⟩
  refine (returns_writeHead h₁ (hw.safe hsafe hidle) (hw.idle hidle)
    ((hw.covers hcov).room log.start) (Finset.mem_insert_self _ _)).mono ?_
  intro _ k₂ h₂
  have hhead : w.data log.start = v.data log.start :=
    (hw.same _ fun j _ => by omega).1
  rw [hhead] at h₂
  refine ⟨_, h₂, put_safe (hw.safe hsafe hidle), hw.idle hidle, hw.refs, ?_, ?_, ?_, ?_, ?_⟩
  · simp [hw.issued, RedoLog.commitWrites, RedoLog.logWrites, redo]
  · simp [hw.disk, RedoLog.commitWrites, RedoLog.logWrites, redo, applyWrites_append]
  · intro m hm
    by_cases hms : m = log.start
    · simp [hms]
    · simp only [put, update_of_ne hms]
      exact hw.data_eq fun _ => hm
  · simp
  · intro j hj
    have hne : log.start + 1 + j ≠ log.start := by omega
    simp only [put, update_of_ne hne]
    exact (hw.copied j hj).1

/-- A commit of a nonempty transaction returns.  It issues exactly the writes of
a redo-log commit followed by those that bring the blocks home, and it drops one
reference to each logged block. -/
theorem returns_commit (h : Shows p log.dev log v k) (hn : 0 < log.lh.n) (hfits : Fits log)
    (hsafe : v.Safe) (hidle : v.Idle) (hcov : Covers log T v)
    (hclean : ∀ n, n ∉ log.lh.logged → v.data n = v.disk n) :
    Returns (commit p) k fun _ k' => ∃ w, Shows p log.dev (cleared log) w k' ∧
      w.issued = v.issued ++ ((redo log.start log.size).commitWrites log.lh.n log.lh.block v.data
          (encodeHead log.lh (v.data log.start)) ++
        (redo log.start log.size).installWrites log.lh.n log.lh.block v.data
          (clearHead (encodeHead log.lh (v.data log.start)))) ∧
      w.disk = applyWrites v.disk
        ((redo log.start log.size).commitWrites log.lh.n log.lh.block v.data
          (encodeHead log.lh (v.data log.start)) ++
        (redo log.start log.size).installWrites log.lh.n log.lh.block v.data
          (clearHead (encodeHead log.lh (v.data log.start)))) ∧
      w.data = w.disk ∧ (∀ n, w.held n = false) ∧
      ∀ n, w.refs n = if n ∈ log.lh.logged then uint (v.refs n + (2 ^ 32 - 1)) else v.refs n := by
  have hlog := h.log_eq
  refine wp_bind_get.mpr ?_
  rw [hlog, if_pos hn]
  refine (returns_commitHead h hfits hsafe hidle hcov).bind ?_
  rintro - k₁ ⟨u, h₁, hsafe₁, hidle₁, hrefs₁, hissued, hdisk, hcleanu, hhead, hcopy⟩
  have hcov₁ : Covers log T u :=
    ⟨hcov.logged, hcov.card, hcov.outside, fun n hne => hcov.refs n (by rwa [hrefs₁] at hne)⟩
  refine (returns_installTrans h₁ hfits hsafe₁ hidle₁ hcov₁).bind ?_
  rintro - k₂ ⟨w, h₂, hw⟩
  refine (returns_clearLog h₂).bind ?_
  rintro - k₃ h₃
  have h₃ : Shows p (cleared log).dev (cleared log) w k₃ := h₃
  refine (returns_writeHead h₃ (hw.safe hsafe₁ hidle₁) (hw.idle hidle₁)
    ((hw.covers hcov₁ le_rfl).room log.start) (Finset.mem_insert_self _ _)).mono ?_
  intro _ k₄ h₄
  have hwrites : ((List.range log.lh.n).map fun j =>
      (log.lh.block j, u.data (log.start + 1 + j))) =
        (List.range log.lh.n).map fun j => (log.lh.block j, v.data (log.lh.block j)) := by
    apply List.map_congr_left
    intro j hj
    rw [hcopy j (List.mem_range.mp hj)]
  have hclear : encodeHead (cleared log).lh (w.data log.start) =
      clearHead (encodeHead log.lh (v.data log.start)) := by
    rw [(hw.same log.start fun j hj heq => hfits.outside j hj (heq ▸ hfits.area_start)).1, hhead]
    rfl
  have hstart : (cleared log).start = log.start := rfl
  refine ⟨_, h₄, ?_, ?_, ?_, ?_, ?_⟩
  · simp only [put, hw.issued, hissued, hwrites, hstart, hclear, RedoLog.installWrites, redo,
      List.append_assoc]
  · simp only [put, hw.disk, hdisk, hwrites, hstart, hclear, RedoLog.installWrites, redo,
      applyWrites_append, applyWrites_cons, applyWrites_nil]
  · refine put_data_eq (funext fun n => hw.data_eq fun hnot => ?_)
    apply hcleanu n (hclean n ?_)
    intro hlogged
    obtain ⟨j, hj, heq⟩ := Logheader.mem_logged.mp hlogged
    exact hnot j hj heq
  · intro n
    exact ((hw.idle hidle₁) n).1
  · intro n
    simp only [put, ← hrefs₁]
    split
    next hlogged =>
      obtain ⟨j, hj, rfl⟩ := Logheader.mem_logged.mp hlogged
      exact hw.dropped j hj
    next hnot =>
      exact hw.kept n fun j hj heq => hnot (Logheader.mem_logged.mpr ⟨j, hj, heq⟩)

end Transactions

end Log
end Xv6
