import Mathlib.Tactic
import Xv6.User.Malloc
import Xv6.Vm.Sbrk

/-!
# The memory that `malloc` gets from the kernel

`malloc` and `morecore` of `umalloc.c` on top of `sys_sbrk`.  `morecore` passes the number of
bytes as an `int`.  The break is a multiple of the header size, as `exec` leaves it and `morecore`
keeps it.

Main results:

- Theorem {lit}`Proc.malloc_spec`: every call ends, and what it does to the break and the list.
- Theorem {lit}`malloc_claims_iff`: the requests for which `malloc` claims no more than it got.
- Theorem {lit}`malloc_claims_four_gigabytes`: a first request for `2^32 - 1` bytes succeeds.
-/

namespace Xv6
namespace Umalloc

open Lib Vm

/-! ## The functions -/

/-- A process with its heap and `p->sz`. -/
structure Proc where
  heap : Heap
  psz : Nat

/-- The heap when `morecore` takes the units from `hp` to `hp + nu` for memory that it got. -/
def Heap.extended (s : Heap) (hp nu : Nat) : Heap :=
  { s with brk := hp + nu, got := s.got ++ [⟨hp, nu⟩] }

/-- The result of `morecore`: no memory, a page fault at the new header, or a larger list. -/
inductive Core where
  | fails
  | faults (p : Proc)
  | gives (p : Proc)

/-- How a call of `malloc` ends. -/
inductive Outcome where
  | returns (ap : Nat)
  | killed
deriving DecidableEq

namespace Proc

/-- The argument of `sbrk` in `morecore`. -/
def sbrkArg (nu : Nat) : Int := int (coreUnits nu * headerSize)

/-- The end of `morecore`, with `nu` units at the old break.  The write of `hp->s.size` is the
first access to them. -/
def addCore (fuel : Nat) (p : Proc) (nu psz : Nat) : Option Core :=
  let hp := p.psz / headerSize
  if p.psz / pgsize < npg psz then
    (freeBlock fuel ((p.heap.extended hp nu).setSize hp nu) hp).map fun heap => .gives ⟨heap, psz⟩
  else some (.faults { p with psz := psz })

/-- `morecore`, with `ok` for the memory of the kernel. -/
def morecore (fuel : Nat) (p : Proc) (nu : Nat) (ok : Bool) : Option Core :=
  (moveBreak p.psz (sbrkArg nu) ok).elim (some .fails) (p.addCore fuel (coreUnits nu))

/-- The loop of `malloc` at `prevp`, with the function that gets more memory. -/
def mallocLoop (morecore : Nat → Proc → Nat → Bool → Option Core) :
    Nat → Nat → Nat → List Bool → Proc → Option (Outcome × Proc)
  | 0, _, _, _, _ => none
  | fuel + 1, nunits, prevp, oks, p =>
    let q := p.heap.ptr prevp
    if nunits ≤ p.heap.size q then
      let r := take p.heap prevp nunits
      some (.returns r.1, { p with heap := r.2 })
    else if q = p.heap.freep then
      match morecore fuel p nunits (oks.headD false) with
      | none => none
      | some .fails => some (.returns 0, p)
      | some (.faults p') => some (.killed, p')
      | some (.gives p') => mallocLoop morecore fuel nunits p'.heap.freep oks.tail p'
    else mallocLoop morecore fuel nunits q oks p

/-- `malloc`. -/
def malloc (fuel : Nat) (p : Proc) (nbytes : Nat) (oks : List Bool) : Option (Outcome × Proc) :=
  let p := { p with heap := init p.heap }
  mallocLoop morecore fuel (uint (nunits nbytes)) p.heap.freep oks p

end Proc

/-! ## States and honest calls -/

/-- The list consists of `fl`, and the heap lies below the break. -/
structure Proc.Wf (p : Proc) (fl : List Extent) : Prop where
  list : Inv (init p.heap) fl
  below : p.heap.brk * headerSize ≤ p.psz
  aligned : headerSize ∣ p.psz
  lt : p.psz < 2 ^ 31

/-- The call has taken a block of the list, or has failed without a change, or has put exactly
the memory between the old and the new break into the list. -/
def Honest (p p' : Proc) (o : Outcome) : Prop :=
  (∃ ap, 0 < ap ∧ o = .returns ap ∧ p'.psz = p.psz ∧ p'.heap.got = p.heap.got) ∨
  (o = .returns 0 ∧ p' = { p with heap := init p.heap }) ∨
  ∃ ap b, 0 < ap ∧ o = .returns ap ∧ p'.heap.got = p.heap.got ++ [b] ∧
    b.addr * headerSize = p.psz ∧ (b.addr + b.len) * headerSize = p'.psz

/-! ## The break -/

theorem nunits_le {nbytes : Nat} (h : nbytes < 2 ^ 32) : nunits nbytes ≤ 2 ^ 28 + 1 := by
  unfold nunits headerSize
  omega

/-- The argument of `sbrk` for every request. -/
theorem sbrkArg_cases {nbytes : Nat} (h : nbytes < 2 ^ 32) :
    (nbytes ≤ 2 ^ 31 - 32 ∧
      Proc.sbrkArg (nunits nbytes) = coreUnits (nunits nbytes) * headerSize ∧
      coreUnits (nunits nbytes) * headerSize < 2 ^ 31) ∨
    (2 ^ 31 - 32 < nbytes ∧ nbytes < 2 ^ 32 - 15 ∧ Proc.sbrkArg (nunits nbytes) ≤ 0) ∨
    (2 ^ 32 - 15 ≤ nbytes ∧ Proc.sbrkArg (nunits nbytes) = headerSize ∧
      coreUnits (nunits nbytes) = 2 ^ 28 + 1) := by
  have hcore : coreUnits (nunits nbytes) = max 4096 (nunits nbytes) := by
    unfold coreUnits
    split
    · omega
    · omega
  unfold Proc.sbrkArg int
  rw [hcore, Int.bmod_def]
  unfold nunits headerSize
  omega

/-- The new break is the end of the claimed memory for small requests only. -/
theorem moveBreak_sbrkArg_iff {nbytes psz sz : Nat} {ok : Bool} (hn : nbytes < 2 ^ 32)
    (hpsz : psz < 2 ^ 31) (h : moveBreak psz (Proc.sbrkArg (nunits nbytes)) ok = some sz) :
    sz = psz + coreUnits (nunits nbytes) * headerSize ↔ nbytes ≤ 2 ^ 31 - 32 := by
  have hpos : 0 < coreUnits (nunits nbytes) * headerSize :=
    Nat.mul_pos (le_coreUnits _).2 (by decide)
  obtain ⟨hle, harg, hlt⟩ | ⟨hgt, -, harg⟩ | ⟨hgt, harg, hcore⟩ := sbrkArg_cases hn
  · refine iff_of_true ?_ hle
    unfold moveBreak at h
    rw [harg, if_pos (by omega)] at h
    obtain ⟨-, h⟩ := Option.ite_none_right_eq_some.mp h
    rw [← Option.some.inj h]
    unfold addInt
    omega
  · refine iff_of_false ?_ (by omega)
    have hsz : sz ≤ psz := by
      unfold moveBreak at h
      rw [if_neg (by omega)] at h
      split at h
      · rw [← Option.some.inj h]
        exact min_le_left ..
      · rw [← Option.some.inj h]
    omega
  · refine iff_of_false ?_ (by omega)
    unfold moveBreak at h
    rw [harg, if_pos (by decide)] at h
    obtain ⟨-, h⟩ := Option.ite_none_right_eq_some.mp h
    rw [← Option.some.inj h, hcore]
    unfold addInt headerSize
    omega

/-- `sbrk` fails only when it asks for memory and there is none. -/
theorem moveBreak_eq_none_iff {psz : Nat} {n : Int} {ok : Bool} :
    moveBreak psz n ok = none ↔ 0 < n ∧ ok = false := by
  unfold moveBreak
  split
  next hpos => cases ok <;> simp [hpos]
  next hle =>
    split
    · simp [hle]
    · simp [hle]

/-- The new header is mapped whenever the break has grown. -/
theorem lt_npg {psz sz : Nat} (h : psz < sz) : psz / pgsize < npg sz := by
  unfold npg pgsize
  omega

/-! ## The search -/

section Search

variable {core : Nat → Proc → Nat → Bool → Option Core} {p : Proc} {fl : List Extent} {n : Nat}

/-- What `malloc` does when it has come back to `freep`. -/
def Proc.refill (core : Nat → Proc → Nat → Bool → Option Core) (fuel n : Nat) (oks : List Bool)
    (p : Proc) : Option (Outcome × Proc) :=
  match core fuel p n (oks.headD false) with
  | none => none
  | some .fails => some (.returns 0, p)
  | some (.faults p') => some (.killed, p')
  | some (.gives p') => mallocLoop core fuel n p'.heap.freep oks.tail p'

/-- A search that finds a block does not depend on the kernel. -/
theorem Proc.mallocLoop_of_found {fuel a r : Nat} {s' : Heap} (hr : 0 < r)
    (h : Umalloc.mallocLoop fuel n a [] p.heap = some (r, s')) (oks : List Bool) :
    mallocLoop core fuel n a oks p = some (.returns r, { p with heap := s' }) := by
  induction fuel generalizing a with
  | zero => cases h
  | succ fuel ih =>
    have hnone : Umalloc.morecore fuel p.heap n none = some none := by
      simp only [Umalloc.morecore, sbrk]
    simp only [Umalloc.mallocLoop, List.headD_nil, hnone] at h
    simp only [mallocLoop]
    split at h
    next hbig =>
      rw [if_pos hbig, Option.some.inj h]
    next hsmall =>
      rw [if_neg hsmall]
      split at h
      next hfreep =>
        obtain ⟨rfl, -⟩ := Prod.mk.inj (Option.some.inj h)
        omega
      next hne =>
        rw [if_neg hne]
        exact ih h

/-- Past small blocks the search comes back to `freep`. -/
theorem Proc.mallocLoop_of_small {a : Nat} {l : List Nat}
    (hpath : Path p.heap.ptr a l p.heap.freep) (hnot : p.heap.freep ∉ l)
    (hsmall : ∀ y ∈ a :: l, p.heap.size (p.heap.ptr y) < n) (oks : List Bool) (fuel : Nat) :
    mallocLoop core (fuel + l.length + 1) n a oks p = refill core fuel n oks p := by
  induction l generalizing a with
  | nil =>
    have hptr : p.heap.ptr a = p.heap.freep := hpath
    have hlt := hsmall a List.mem_cons_self
    simp only [List.length_nil, Nat.add_zero, mallocLoop, if_neg (Nat.not_le.mpr hlt),
      if_pos hptr, refill]
  | cons b l ih =>
    obtain ⟨hptr, hrest⟩ := hpath
    rw [List.mem_cons, not_or] at hnot
    have hlt := hsmall a List.mem_cons_self
    have hne : ¬ p.heap.ptr a = p.heap.freep := by
      rw [hptr]
      exact Ne.symm hnot.1
    rw [List.length_cons, ← Nat.add_assoc]
    rw [mallocLoop, if_neg (Nat.not_le.mpr hlt), if_neg hne, hptr]
    exact ih hrest hnot.2 fun y hy => hsmall y (List.mem_cons_of_mem a hy)

/-- With a large block in the list, `malloc` takes a block and leaves the break. -/
theorem Proc.search_found (h : Inv p.heap fl) (hn : 0 < n) (hbig : ∃ x ∈ fl, n ≤ x.len)
    (oks : List Bool) : ∃ s' ap, 0 < ap ∧ s'.got = p.heap.got ∧ ∀ fuel, fl.length < fuel →
      mallocLoop core fuel n p.heap.freep oks p = some (.returns ap, { p with heap := s' }) := by
  obtain ⟨s', -, q, -, -, -, hgot, hloop⟩ := h.search_found hn hbig []
  refine ⟨s', headerSize * (q + 1), Nat.mul_pos (by decide) (Nat.succ_pos q), hgot, ?_⟩
  intro fuel hfuel
  exact Proc.mallocLoop_of_found (Nat.mul_pos (by decide) (Nat.succ_pos q)) (hloop fuel hfuel) oks

/-- Without one, `malloc` calls `morecore`. -/
theorem Proc.search_refill (h : Inv p.heap fl) (hn : 0 < n) (hsmall : ∀ x ∈ fl, x.len < n)
    (oks : List Bool) (fuel : Nat) :
    mallocLoop core (fuel + fl.length + 1) n p.heap.freep oks p = refill core fuel n oks p := by
  obtain ⟨l, hpath, hperm, hnot, hlen⟩ := h.circle
  rw [← hlen]
  refine Proc.mallocLoop_of_small hpath hnot (fun y hy => ?_) oks fuel
  exact h.size_ptr_lt hn hsmall (hperm.mem_iff.mp hy)

/-- The blocks of the heap lie below its end. -/
theorem Inv.units_le {s : Heap} (h : Inv s fl) : s.units ≤ s.brk := by
  have hsub : cells s.got ⊆ List.range s.brk := fun a ha => List.mem_range.mpr (h.got_lt a ha).2
  have hlen := (h.nodup_got.subperm hsub).length_le
  rw [length_cells, List.length_range] at hlen
  exact hlen

theorem morecore_some {s : Heap} {fuel gap : Nat} : Umalloc.morecore fuel s n (some gap) =
    (freeBlock fuel ((s.extended (s.brk + gap) (coreUnits n)).setSize (s.brk + gap) (coreUnits n))
      (s.brk + gap)).map some := by
  unfold Umalloc.morecore
  generalize coreUnits n = c
  rfl

theorem Proc.morecore_of_mapped {psz fuel : Nat} {ok : Bool}
    (hmove : moveBreak p.psz (sbrkArg n) ok = some psz) (hmapped : p.psz / pgsize < npg psz) :
    p.morecore fuel n ok = (freeBlock fuel ((p.heap.extended (p.psz / headerSize)
      (coreUnits n)).setSize (p.psz / headerSize) (coreUnits n)) (p.psz / headerSize)).map
        fun heap => .gives ⟨heap, psz⟩ := by
  rw [Proc.morecore, hmove, Option.elim_some, Proc.addCore, if_pos hmapped]

/-- `morecore` when `sbrk` has succeeded and the new header can be written. -/
theorem Proc.morecore_gives {psz : Nat} {ok : Bool} (h : Inv p.heap fl)
    (hbelow : p.heap.brk * headerSize ≤ p.psz) (hunits : p.heap.units + coreUnits n < 2 ^ 32)
    (hmove : moveBreak p.psz (sbrkArg n) ok = some psz) (hmapped : p.psz / pgsize < npg psz) :
    ∃ s' fl', Inv s' fl' ∧ s'.got = p.heap.got ++ [⟨p.psz / headerSize, coreUnits n⟩] ∧
      (∃ x ∈ fl', n ≤ x.len) ∧
      ∀ fuel, fl.length < fuel → p.morecore fuel n ok = some (.gives ⟨s', psz⟩) := by
  have hbrk : p.heap.brk ≤ p.psz / headerSize := (Nat.le_div_iff_mul_le (by decide)).mpr hbelow
  obtain ⟨gap, hgap⟩ := Nat.exists_eq_add_of_le hbrk
  obtain ⟨s', fl', hinv, -, hgot, -, -, hbig, hmore⟩ := h.morecore gap hunits
  rw [← hgap] at hgot
  refine ⟨s', fl', hinv, hgot, hbig, fun fuel hfuel => ?_⟩
  have hfree := hmore fuel hfuel
  rw [morecore_some, ← hgap] at hfree
  obtain ⟨s₁, hs₁, heq⟩ := Option.map_eq_some_iff.mp hfree
  rw [Proc.morecore_of_mapped hmove hmapped, hs₁, Option.some.inj heq]
  rfl

end Search

/-! ## Whole calls -/

section Calls

variable {p p' : Proc} {fl : List Extent} {nbytes : Nat}

/-- The requests for which a call is honest. -/
def Granted (fl : List Extent) (nbytes : Nat) (oks : List Bool) : Prop :=
  (∃ b ∈ fl, nunits nbytes ≤ b.len) ∨ nbytes ≤ 2 ^ 31 - 32 ∨
    (2 ^ 32 - 15 ≤ nbytes ∧ oks.headD false = false)

theorem got_init (s : Heap) : (init s).got = s.got ∧ (init s).brk = s.brk := by
  unfold init
  split
  · exact ⟨rfl, rfl⟩
  · exact ⟨rfl, rfl⟩

/-- A call that has put `nu` units at the old break into the list. -/
theorem honest_iff_of_got {ap nu : Nat} (hap : 0 < ap) (halign : headerSize ∣ p.psz)
    (hgot : p'.heap.got = p.heap.got ++ [⟨p.psz / headerSize, nu⟩]) :
    Honest p p' (.returns ap) ↔ p'.psz = p.psz + nu * headerSize := by
  have haddr : p.psz / headerSize * headerSize = p.psz := Nat.div_mul_cancel halign
  constructor
  · rintro (⟨_, _, _, _, hsame⟩ | ⟨heq, _⟩ | ⟨_, b, _, _, hb, _, hend⟩)
    · rw [hgot] at hsame
      exact absurd hsame (by simp)
    · cases heq
      omega
    · rw [hgot] at hb
      obtain rfl := List.singleton_injective (List.append_cancel_left hb)
      rw [Nat.add_mul, haddr] at hend
      exact hend.symm
  · intro heq
    refine Or.inr (Or.inr ⟨ap, _, hap, rfl, hgot, haddr, ?_⟩)
    rw [Nat.add_mul, haddr, heq]

theorem not_honest_killed : ¬ Honest p p' .killed := by
  rintro (⟨_, _, heq, _⟩ | ⟨heq, _⟩ | ⟨_, _, _, heq, _⟩)
  · cases heq
  · cases heq
  · cases heq

/-- Every call ends, and it is honest exactly for these requests. -/
theorem Proc.malloc_spec (h : p.Wf fl) (hn : nbytes < 2 ^ 32) (oks : List Bool) :
    ∃ F o p', (∀ fuel, F ≤ fuel → p.malloc fuel nbytes oks = some (o, p')) ∧
      (Honest p p' o ↔ Granted fl nbytes oks) := by
  have hpos : 0 < nunits nbytes := Nat.succ_pos _
  have hle := nunits_le hn
  obtain ⟨hgot₀, hbrk₀⟩ := got_init p.heap
  have hinv := h.list
  have hbelow := h.below
  rw [← hbrk₀] at hbelow
  have hmalloc : ∀ fuel, p.malloc fuel nbytes oks = mallocLoop morecore fuel (nunits nbytes)
      (init p.heap).freep oks { p with heap := init p.heap } := by
    intro fuel
    rw [Proc.malloc, uint_of_lt (by omega)]
  generalize hp₀ : ({ p with heap := init p.heap } : Proc) = p₀ at hmalloc
  have hheap : init p.heap = p₀.heap := by rw [← hp₀]
  have hpsz : p.psz = p₀.psz := by rw [← hp₀]
  rw [hheap] at hinv hbelow hgot₀ hmalloc
  by_cases hbig : ∃ b ∈ fl, nunits nbytes ≤ b.len
  · obtain ⟨s', ap, hap, hgot, hloop⟩ := Proc.search_found hinv hpos hbig oks
    refine ⟨fl.length + 1, _, _, fun fuel hfuel => (hmalloc fuel).trans (hloop fuel hfuel), ?_⟩
    exact iff_of_true (Or.inl ⟨ap, hap, rfl, hpsz.symm, hgot.trans hgot₀⟩) (Or.inl hbig)
  push Not at hbig
  -- the search comes back, and everything depends on `sbrk`
  have hrefill : ∀ fuel, fl.length < fuel → p.malloc fuel nbytes oks =
      refill morecore (fuel - fl.length - 1) (nunits nbytes) oks p₀ := by
    intro fuel hfuel
    rw [hmalloc, ← Proc.search_refill hinv hpos hbig]
    congr 1
    omega
  have hgranted : ∀ sz, moveBreak p.psz (sbrkArg (nunits nbytes)) (oks.headD false) = some sz →
      (Granted fl nbytes oks ↔ nbytes ≤ 2 ^ 31 - 32) := by
    intro sz hsz
    constructor
    · rintro (⟨b, hb, hlen⟩ | hsmall | ⟨hlarge, hok⟩)
      · have := hbig b hb
        omega
      · exact hsmall
      · obtain ⟨hle', -⟩ | ⟨-, hlt, -⟩ | ⟨-, harg, -⟩ := sbrkArg_cases hn
        · exact hle'
        · omega
        · have hpos' : 0 < sbrkArg (nunits nbytes) := by
            rw [harg]
            decide
          rw [moveBreak_eq_none_iff.mpr ⟨hpos', hok⟩] at hsz
          cases hsz
    · exact fun hsmall => Or.inr (Or.inl hsmall)
  cases hmove : moveBreak p.psz (sbrkArg (nunits nbytes)) (oks.headD false) with
  | none =>
    have hcore : ∀ fuel, morecore fuel p₀ (nunits nbytes) (oks.headD false) = some .fails := by
      intro fuel
      rw [Proc.morecore, ← hpsz, hmove, Option.elim_none]
    refine ⟨fl.length + 1, .returns 0, p₀, fun fuel hfuel => ?_, ?_⟩
    · rw [hrefill fuel hfuel, refill, hcore]
    · refine iff_of_true (Or.inr (Or.inl ⟨rfl, hp₀.symm⟩)) ?_
      obtain ⟨harg, hok⟩ := moveBreak_eq_none_iff.mp hmove
      obtain ⟨hsmall, -⟩ | ⟨-, -, hneg⟩ | ⟨hlarge, -⟩ := sbrkArg_cases hn
      · exact Or.inr (Or.inl hsmall)
      · omega
      · exact Or.inr (Or.inr ⟨hlarge, hok⟩)
  | some sz =>
    have hiff := moveBreak_sbrkArg_iff hn h.lt hmove
    rw [hgranted sz hmove, ← hiff]
    by_cases hmapped : p.psz / pgsize < npg sz
    · have hunits : p₀.heap.units + coreUnits (nunits nbytes) < 2 ^ 32 := by
        have hunits := hinv.units_le
        have hlt := h.lt
        have hcore : coreUnits (nunits nbytes) ≤ 2 ^ 28 + 1 := by
          unfold coreUnits
          split
          · omega
          · omega
        unfold headerSize at hbelow
        omega
      rw [hpsz] at hmove hmapped hbelow
      obtain ⟨s₁, fl₁, hinv₁, hgot₁, hbig₁, hcore⟩ :=
        Proc.morecore_gives hinv hbelow hunits hmove hmapped
      have hinv₁' : Inv (⟨s₁, sz⟩ : Proc).heap fl₁ := hinv₁
      obtain ⟨s', ap, hap, hgot, hloop⟩ := Proc.search_found hinv₁' hpos hbig₁ oks.tail
      refine ⟨fl.length + 1 + (fl.length + fl₁.length + 1), .returns ap, ⟨s', sz⟩,
        fun fuel hfuel => ?_, ?_⟩
      · rw [hrefill fuel (by omega), refill, hcore _ (by omega)]
        exact hloop _ (by omega)
      · have hgot' : (⟨s', sz⟩ : Proc).heap.got = p.heap.got ++
            [⟨p.psz / headerSize, coreUnits (nunits nbytes)⟩] := by
          rw [hpsz]
          exact hgot.trans (hgot₁.trans (by rw [hgot₀]))
        exact honest_iff_of_got hap h.aligned hgot'
    · have hcore : ∀ fuel, morecore fuel p₀ (nunits nbytes) (oks.headD false) =
          some (.faults { p₀ with psz := sz }) := by
        intro fuel
        rw [Proc.morecore, ← hpsz, hmove, Option.elim_some, addCore, ← hpsz, if_neg hmapped]
      refine ⟨fl.length + 1, .killed, { p₀ with psz := sz }, fun fuel hfuel => ?_, ?_⟩
      · rw [hrefill fuel hfuel, refill, hcore]
      · refine iff_of_false not_honest_killed fun heq => hmapped (lt_npg ?_)
        have := Nat.mul_pos (le_coreUnits (nunits nbytes)).2 (by decide : 0 < headerSize)
        omega

/-- A call of `malloc` claims exactly the memory by which `sbrk` has moved the break, or fails
without a change, exactly for the granted requests. -/
theorem malloc_claims_iff (h : p.Wf fl) (hn : nbytes < 2 ^ 32) (oks : List Bool) :
    (∃ F o p', (∀ fuel, F ≤ fuel → p.malloc fuel nbytes oks = some (o, p')) ∧ Honest p p' o) ↔
      (∃ b ∈ fl, nunits nbytes ≤ b.len) ∨ nbytes ≤ 2 ^ 31 - 32 ∨
        (2 ^ 32 - 15 ≤ nbytes ∧ oks.headD false = false) := by
  obtain ⟨F, o, p', hcall, hiff⟩ := Proc.malloc_spec h hn oks
  constructor
  · rintro ⟨F', o', p'', hcall', hhonest⟩
    have heq := (hcall (max F F') (le_max_left ..)).symm.trans (hcall' _ (le_max_right ..))
    obtain ⟨rfl, rfl⟩ := Prod.mk.inj (Option.some.inj heq)
    exact hiff.mp hhonest
  · intro hgranted
    exact ⟨F, o, p', hcall, hiff.mpr hgranted⟩

end Calls

/-! ## A process that has not used its heap -/

/-- A program of three pages, before its first call. -/
def freshProc : Proc := ⟨boot (fun _ => 0) (fun _ => 0) 766, 0x3000⟩

theorem wf_freshProc : freshProc.Wf [] where
  list := Unused.init ⟨rfl, rfl, rfl, by decide⟩
  below := by decide
  aligned := by decide
  lt := by decide

/-- It gets the memory for 1000 bytes. -/
theorem malloc_claims_iff_thousand : ∃ F o p',
    (∀ fuel, F ≤ fuel → freshProc.malloc fuel 1000 [true] = some (o, p')) ∧
      Honest freshProc p' o :=
  (malloc_claims_iff wf_freshProc (by decide) [true]).mpr (Or.inr (Or.inl (by decide)))

/-- It asks for `2^32 - 1` bytes.  `sbrk` is called with 16 and succeeds, and `malloc` returns a
block of `2^28 + 1` units. -/
theorem malloc_claims_four_gigabytes : freshProc.Wf [] ∧
    (freshProc.malloc 3 (2 ^ 32 - 1) [true]).map
      (fun r => (r.1, r.2.psz, r.2.heap.got, r.2.heap.live)) =
        some (.returns 0x3010, 0x3010, [⟨0x300, 2 ^ 28 + 1⟩], [⟨0x300, 2 ^ 28 + 1⟩]) ∧
    ¬ ∃ F o p', (∀ fuel, F ≤ fuel → freshProc.malloc fuel (2 ^ 32 - 1) [true] = some (o, p')) ∧
      Honest freshProc p' o := by
  refine ⟨wf_freshProc, by decide +kernel, ?_⟩
  rintro ⟨F', o', p'', hcall', hhonest⟩
  have hlt : 2 ^ 32 - 1 < 2 ^ 32 := by decide
  obtain ⟨F, o, p', hcall, hiff⟩ := Proc.malloc_spec wf_freshProc hlt [true]
  have heq := (hcall (max F F') (le_max_left ..)).symm.trans (hcall' _ (le_max_right ..))
  obtain ⟨rfl, rfl⟩ := Prod.mk.inj (Option.some.inj heq)
  obtain ⟨b, hb, -⟩ | hsmall | ⟨-, hok⟩ := hiff.mp hhonest
  · cases hb
  · exact absurd hsmall (by decide)
  · cases hok

end Umalloc
end Xv6
