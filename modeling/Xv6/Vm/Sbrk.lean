import Mathlib.Tactic
import Xv6.Vm.Space

/-!
# Moving the break

`growproc` of `proc.c` and `sys_sbrk` of `sysproc.c`.  The new size is computed as a `uint`.

Main results:

- Theorem {lit}`Space.wp_grow`: growing, which may fail, and shrinking.
- Theorem {lit}`Space.wp_sysSbrk`: what `sys_sbrk` does to the break.
- Theorem {lit}`sbrk_moves_break_iff`: the break moves by `n`, or nothing changes, unless `n` takes
  it below zero.
- Theorem {lit}`sbrk_below_zero`: then the call reports success and moves nothing.
-/

namespace Xv6
namespace Vm

open Lib

/-! ## The functions -/

/-- The sum of a `uint` and an `int`, which is a `uint`. -/
def addInt (sz : Nat) (n : Int) : Nat := ((sz + n) % 2 ^ 32).toNat

/-- `growproc`, with the table and the size of the process: its result and the new `p->sz`. -/
def growproc (K : Image) (pagetable psz : Nat) (n : Int) : Prog Phys (Int × Nat) :=
  if 0 < n then do
    let sz ← uvmalloc K pagetable (uint psz) (addInt (uint psz) n)
    if uint sz = 0 then pure (-1, psz) else pure (0, uint sz)
  else if n < 0 then do
    let sz ← uvmdealloc K pagetable (uint psz) (addInt (uint psz) n)
    pure (0, uint sz)
  else pure (0, uint psz)

/-- `sys_sbrk`, with the value of its argument. -/
def sysSbrk (K : Image) (pagetable psz : Nat) (n : Int) : Prog Phys (Int × Nat) := do
  let r ← growproc K pagetable psz n
  if r.1 < 0 then pure (-1, r.2) else pure (int psz, r.2)

/-! ## What a call does to the user's memory -/

/-- The pages below `b` are mapped as before, and their bytes are as before. -/
def SameBelow (s s' : Phys) (t b : Nat) : Prop :=
  ∀ a < b, lookup s'.mem t (a / pgsize) = lookup s.mem t (a / pgsize) ∧
    ∀ pte, lookup s.mem t (a / pgsize) = some pte →
      s'.mem (pte2pa pte) (a % pgsize) = s.mem (pte2pa pte) (a % pgsize)

/-- The pages from `n` to `n'` are the user's, and zero. -/
def ZeroPages (s : Phys) (t n n' : Nat) : Prop :=
  ∀ v, n ≤ v → v < n' → ∃ pte, lookup s.mem t v = some pte ∧
    pteFlags pte = userPerm ||| pteV ∧ s.mem (pte2pa pte) = fun _ => 0

/-- Nothing is mapped from page `n` up to the trapframe. -/
def NoPages (s : Phys) (t n : Nat) : Prop :=
  ∀ v, n ≤ v → v < userMax → lookup s.mem t v = none

/-- The call fails and changes nothing, or moves the break by exactly `n`. -/
def MovesBreak (s s' : Phys) (t psz : Nat) (n : Int) (r : Int × Nat) : Prop :=
  (r = (-1, psz) ∧ SameBelow s s' t trapframeVa) ∨
  (r.1 = psz ∧ (r.2 : Int) = psz + n ∧ SameBelow s s' t (min psz r.2) ∧
    ZeroPages s' t (npg psz) (npg r.2) ∧ NoPages s' t (npg r.2))

section Sbrk

variable {K : Image} {s s' : Phys} {t n m sz : Nat} {M M' : Nat → Option Nat}
variable {E : String → Phys → Prop}

/-- The entries of a space. -/
theorem Space.lookup (h : Space K s t n M) {v : Nat} (hv : v < userMax) :
    lookup s.mem t v = M v :=
  h.table.map v (Nat.lt_trans hv (by decide))

/-- The pages below `k` have been kept. -/
theorem Space.sameBelow {k b : Nat} (h : Space K s t n M) (h' : Space K s' t m M')
    (hkn : k ≤ n) (hagree : Agree k M M') (hkeeps : Keeps s s' k M) (hb : b ≤ k * pgsize) :
    SameBelow s s' t b := by
  intro a ha
  have hle := h.le
  have hv : a / pgsize < k := Nat.div_lt_of_lt_mul (by rw [Nat.mul_comm]; omega)
  rw [h.lookup (by omega), h'.lookup (by omega), hagree _ (Or.inl hv)]
  exact ⟨rfl, fun pte hpte => congrFun (hkeeps _ pte hv hpte) _⟩

/-- There are no pages above the break. -/
theorem Space.noPages (h : Space K s t n M) : NoPages s t n := by
  intro v hge hlt
  rw [h.lookup hlt]
  exact h.none v hge hlt

/-- Nothing has been mapped or unmapped, and the pages have been kept. -/
theorem Space.sameBelow_trapframe (h : Space K s t n M) (h' : Space K s' t n M')
    (hagree : Agree n M M') (hkeeps : Keeps s s' n M) : SameBelow s s' t trapframeVa := by
  intro a ha
  by_cases hv : a / pgsize < n
  · exact h.sameBelow h' (Nat.le_refl n) hagree hkeeps (Nat.le_refl _) a
      (by unfold pgsize at *; omega)
  · have hmax : a / pgsize < userMax := by
      rw [← userMax_mul] at ha
      exact Nat.div_lt_of_lt_mul (by rw [Nat.mul_comm]; exact ha)
    rw [h.noPages _ (by omega) hmax, h'.noPages _ (by omega) hmax]
    exact ⟨rfl, fun pte hpte => by cases hpte⟩

/-- New pages are zeroed. -/
theorem Grown.zeroPages (h : Space K s' t m M') (hgrown : Grown s s' n m M M') :
    ZeroPages s' t n m := by
  intro v hge hlt
  have hle := h.le
  obtain ⟨p, hp, hpa, hzero⟩ := hgrown.fresh v hge hlt
  refine ⟨_, (h.lookup (by omega)).trans hp, mapEntry_flags (by decide), ?_⟩
  rw [hpa]
  exact hzero

/-- The new size without overflow. -/
theorem addInt_eq {n : Int} (hge : 0 ≤ sz + n) (hlt : sz + n < 2 ^ 32) :
    (addInt sz n : Int) = sz + n := by
  unfold addInt
  omega

/-- The new size wraps below zero. -/
theorem addInt_wraps {n : Int} (hn : -2 ^ 31 ≤ n) (hneg : sz + n < 0) :
    sz < addInt sz n + 1 := by
  unfold addInt
  omega

/-- A positive `n`. -/
theorem Space.wp_grow {n : Int} (h : Space K s t (npg sz) M) (hsz : sz < 2 ^ 31)
    (hpos : 0 < n) (hn : n < 2 ^ 31) :
    Wp (growproc K t sz n) s (fun r s' => (r = (-1, sz) ∧ SameBelow s s' t trapframeVa) ∨
      (r.1 = 0 ∧ (r.2 : Int) = sz + n ∧ SameBelow s s' t (min sz r.2) ∧
        ZeroPages s' t (npg sz) (npg r.2) ∧ NoPages s' t (npg r.2))) E := by
  have hsum : (addInt sz n : Int) = sz + n := addInt_eq (by omega) (by omega)
  unfold growproc
  rw [if_pos hpos, wp_bind, uint_of_lt (x := sz) (by omega)]
  refine h.wp_uvmalloc (pgroundup_eq (by unfold pgsize; omega)) (by omega) ?_ ?_
  · intro s' M' h' hgrown _
    have hmax : max (npg sz) (npg (addInt sz n)) = npg (addInt sz n) :=
      max_eq_right (npg_mono (by omega))
    rw [hmax] at h' hgrown
    rw [uint_of_lt (by omega), if_neg (by omega)]
    refine wp_pure.mpr (Or.inr ⟨rfl, hsum, ?_, hgrown.zeroPages h', h'.noPages⟩)
    exact h.sameBelow h' (Nat.le_refl _) hgrown.agree hgrown.keeps
      (le_trans (min_le_left ..) (npg_mul_ge sz))
  · intro s' M' h' hagree hkeeps _
    rw [if_pos (by decide)]
    exact wp_pure.mpr (Or.inl ⟨rfl, h.sameBelow_trapframe h' hagree hkeeps⟩)

/-- A negative `n` that leaves a size. -/
theorem Space.wp_shrink {n : Int} (h : Space K s t (npg sz) M) (hsz : sz < 2 ^ 31)
    (hneg : n < 0) (hge : 0 ≤ sz + n) :
    Wp (growproc K t sz n) s (fun r s' => r.1 = 0 ∧ (r.2 : Int) = sz + n ∧
      SameBelow s s' t (min sz r.2) ∧ ZeroPages s' t (npg sz) (npg r.2) ∧
      NoPages s' t (npg r.2)) E := by
  have hsum : (addInt sz n : Int) = sz + n := addInt_eq hge (by omega)
  unfold growproc
  rw [if_neg (by omega), if_pos hneg, wp_bind, uint_of_lt (x := sz) (by omega)]
  have hmono : npg (addInt sz n) ≤ npg sz := npg_mono (by omega)
  refine h.wp_uvmdealloc (pgroundup_eq (by unfold pgsize; omega))
    (pgroundup_eq (by unfold pgsize; omega)) (by omega) hmono fun s' M' h' hagree hkeeps _ => ?_
  rw [uint_of_lt (by omega)]
  refine wp_pure.mpr ⟨rfl, hsum, ?_, fun v hv hv' => ?_, h'.noPages⟩
  · exact h.sameBelow h' hmono hagree hkeeps (le_trans (min_le_right ..) (npg_mul_ge _))
  · dsimp only at hv'
    omega

/-- An `n` that would take the break below zero moves nothing. -/
theorem growproc_of_neg {n : Int} (hsz : sz < 2 ^ 31) (hn : -2 ^ 31 ≤ n) (hneg : sz + n < 0) :
    growproc K t sz n s = .ok (0, sz) s := by
  have hle := addInt_wraps hn hneg
  unfold growproc uvmdealloc
  rw [if_neg (by omega), if_pos (by omega), uint_of_lt (x := sz) (by omega), if_pos (by omega),
    pure_bind, uint_of_lt (x := sz) (by omega)]
  rfl

/-- What `sys_sbrk` adds to `growproc`. -/
theorem wp_sysSbrk {n : Int} {Q : Int × Nat → Phys → Prop}
    (h : Wp (growproc K t sz n) s (fun r s' =>
      (r.1 < 0 → Q (-1, r.2) s') ∧ (0 ≤ r.1 → Q (int sz, r.2) s')) E) :
    Wp (sysSbrk K t sz n) s Q E := by
  unfold sysSbrk
  refine h.bind fun r s' hr => ?_
  split
  next hneg => exact wp_pure.mpr (hr.1 hneg)
  next hpos => exact wp_pure.mpr (hr.2 (by omega))

/-- The break moves by exactly `n`, or the call fails and nothing changes, unless the new break
would be below zero. -/
theorem sbrk_moves_break_iff {n : Int} (h : Space K s t (npg sz) M) (hsz : sz < 2 ^ 31)
    (hmin : -2 ^ 31 ≤ n) (hmax : n < 2 ^ 31) :
    (∃ r s', sysSbrk K t sz n s = .ok r s' ∧ MovesBreak s s' t sz n r) ↔ 0 ≤ sz + n := by
  have hint : int sz = sz := int_of_lt (by omega) (by omega)
  constructor
  · rintro ⟨r, s', hrun, hmoves⟩
    by_contra hneg
    have hgrow := growproc_of_neg (K := K) (t := t) (s := s) hsz hmin (by omega)
    have hres : Wp (sysSbrk K t sz n) s (fun r _ => r = ((sz : Int), sz)) fun _ _ => False := by
      refine wp_sysSbrk ((wp_of_ok hgrow).mpr ⟨fun hlt => ?_, fun _ => by rw [hint]⟩)
      dsimp only at hlt
      omega
    obtain rfl := hres.of_ok hrun
    obtain ⟨heq, -⟩ | ⟨-, heq, -⟩ := hmoves
    · obtain ⟨hsz', -⟩ := Prod.mk.inj heq
      omega
    · dsimp only at heq
      omega
  · intro hge
    refine returns_iff.mp (wp_sysSbrk ?_)
    rw [hint]
    obtain hneg | rfl | hpos := lt_trichotomy n 0
    · refine (h.wp_shrink hsz hneg hge).mono (fun r s' hr => ?_) fun _ _ hE => hE
      obtain ⟨hr, hrest⟩ := hr
      exact ⟨fun hlt => by omega, fun _ => Or.inr ⟨rfl, hrest⟩⟩
    · unfold growproc
      rw [if_neg (Int.lt_irrefl 0), if_neg (Int.lt_irrefl 0), uint_of_lt (by omega)]
      refine wp_pure.mpr ⟨fun hlt => absurd hlt (Int.lt_irrefl 0), fun _ => Or.inr ⟨rfl, ?_⟩⟩
      refine ⟨(Int.add_zero _).symm, ?_, fun v hv hv' => absurd hv (Nat.not_le.mpr hv'), h.noPages⟩
      exact fun a _ => ⟨rfl, fun _ _ => rfl⟩
    · refine (h.wp_grow hsz hpos hmax).mono (fun r s' hr => ?_) fun _ _ hE => hE
      obtain ⟨rfl, hsame⟩ | ⟨hr, hrest⟩ := hr
      · refine ⟨fun _ => Or.inl ⟨rfl, hsame⟩, fun hle => ?_⟩
        dsimp only at hle
        omega
      · exact ⟨fun hlt => by omega, fun _ => Or.inr ⟨rfl, hrest⟩⟩

/-! ## The break alone -/

/-- The new `p->sz` of a process after `sys_sbrk(n)`, or a failure.  `ok` says that `uvmalloc`
has found the memory. -/
def moveBreak (psz : Nat) (n : Int) (ok : Bool) : Option Nat :=
  if 0 < n then if ok then some (addInt psz n) else none
  else if n < 0 then some (min psz (addInt psz n))
  else some psz

/-- `sys_sbrk` moves the break in this way. -/
theorem Space.wp_sysSbrk {n : Int} (h : Space K s t (npg sz) M) (hsz : sz < 2 ^ 31)
    (hmin : -2 ^ 31 ≤ n) (hmax : n < 2 ^ 31) :
    Wp (sysSbrk K t sz n) s (fun r _ => ∃ ok,
      r = (moveBreak sz n ok).elim (-1, sz) fun sz' => ((sz : Int), sz')) E := by
  have hint : int sz = sz := int_of_lt (by omega) (by omega)
  refine Vm.wp_sysSbrk ?_
  rw [hint]
  obtain hneg | rfl | hpos := lt_trichotomy n 0
  · have hbreak : moveBreak sz n true = some (min sz (addInt sz n)) := by
      unfold moveBreak
      rw [if_neg (by omega), if_pos hneg]
    by_cases hge : 0 ≤ sz + n
    · have hsum : (addInt sz n : Int) = sz + n := addInt_eq hge (by omega)
      refine (h.wp_shrink hsz hneg hge).mono (fun r s' hr => ?_) fun _ _ hE => hE
      refine ⟨fun hlt => by omega, fun _ => ⟨true, ?_⟩⟩
      rw [hbreak, Option.elim_some, min_eq_right (by omega)]
      exact Prod.ext rfl (by dsimp only; omega)
    · have hle : sz < addInt sz n + 1 := addInt_wraps hmin (by omega)
      refine (wp_of_ok (growproc_of_neg hsz hmin (by omega))).mpr
        ⟨fun hlt => ?_, fun _ => ⟨true, ?_⟩⟩
      · dsimp only at hlt
        omega
      · rw [hbreak, Option.elim_some, min_eq_left (by omega)]
  · unfold growproc
    rw [if_neg (Int.lt_irrefl 0), if_neg (Int.lt_irrefl 0), uint_of_lt (by omega)]
    refine wp_pure.mpr ⟨fun hlt => absurd hlt (Int.lt_irrefl 0), fun _ => ⟨true, ?_⟩⟩
    rfl
  · refine (h.wp_grow hsz hpos hmax).mono (fun r s' hr => ?_) fun _ _ hE => hE
    obtain ⟨rfl, -⟩ | ⟨hr, hsum, -⟩ := hr
    · refine ⟨fun _ => ⟨false, ?_⟩, fun hle => ?_⟩
      · unfold moveBreak
        rw [if_pos hpos]
        rfl
      · dsimp only at hle
        omega
    · have hsum' : (addInt sz n : Int) = sz + n := addInt_eq (by omega) (by omega)
      refine ⟨fun hlt => by omega, fun _ => ⟨true, ?_⟩⟩
      unfold moveBreak
      rw [if_pos hpos, if_pos rfl, Option.elim_some]
      exact Prod.ext rfl (by dsimp only; omega)

end Sbrk

/-! ## A process with one page -/

/-- The memory of a process that has got its first page. -/
def onePage : Phys := (stateOf (uvmalloc tinyImage 0x80008000 0 4096) tinyTable).getD tinyTable

/-- A space of one page. -/
theorem space_onePage : ∃ M, Space tinyImage onePage 0x80008000 (npg 4096) M := by
  have hspec : Wp (uvmalloc tinyImage 0x80008000 0 4096) tinyTable
      (fun r s => r = 4096 → ∃ M, Space tinyImage s 0x80008000 (npg 4096) M) fun _ _ => False :=
    space_tinyTable.wp_uvmalloc rfl (Nat.zero_le _) (fun _ M h _ _ _ => ⟨M, h⟩)
      fun _ _ _ _ _ _ hr => absurd hr (by decide)
  have hres : outcome (uvmalloc tinyImage 0x80008000 0 4096) tinyTable = .ok 4096 := by
    decide +kernel
  obtain ⟨s, hrun⟩ := exists_ok hres
  have hmem : onePage = s := by
    rw [onePage, stateOf, hrun]
    rfl
  rw [hmem]
  exact hspec.of_ok hrun rfl

/-- It gets a second page. -/
theorem sbrk_moves_break_iff_page : ∃ s',
    sysSbrk tinyImage 0x80008000 4096 4096 onePage = .ok (4096, 8192) s' ∧
      MovesBreak onePage s' 0x80008000 4096 4096 (4096, 8192) := by
  obtain ⟨M, h⟩ := space_onePage
  obtain ⟨r, s', hrun, hmoves⟩ :=
    (sbrk_moves_break_iff h (by decide) (by decide) (by decide)).mpr
      (by decide : 0 ≤ ((4096 : Nat) : Int) + 4096)
  have hres : outcome (sysSbrk tinyImage 0x80008000 4096 4096) onePage = .ok (4096, 8192) := by
    decide +kernel
  obtain ⟨s'', hrun'⟩ := exists_ok hres
  cases hrun.symm.trans hrun'
  exact ⟨s', hrun, hmoves⟩

/-- It gives back 4097 bytes: `sys_sbrk` returns the old size, not -1, and the size stays. -/
theorem sbrk_below_zero : (∃ M, Space tinyImage onePage 0x80008000 (npg 4096) M) ∧
    sysSbrk tinyImage 0x80008000 4096 (-4097) onePage = .ok (4096, 4096) onePage ∧
    ¬ MovesBreak onePage onePage 0x80008000 4096 (-4097) (4096, 4096) := by
  refine ⟨space_onePage, bind_of_ok (growproc_of_neg (by decide) (by decide) (by decide)), ?_⟩
  rintro (⟨heq, -⟩ | ⟨-, heq, -⟩)
  · exact absurd (congrArg Prod.fst heq) (by decide)
  · exact absurd heq (by decide)

end Vm
end Xv6
