import Mathlib.Tactic
import Xv6.Vm.Maps

/-!
# Copying between the kernel and a user

`copyout` and `copyin` of `vm.c`.  They go through the user's pages one by one and stop at
the first page that the user could not access itself.

Main results:

- Theorem {lit}`wp_copyout`, {lit}`copyin_eq`: what is transferred before the first bad page.
- Theorem {lit}`copy_exact`: the results of both functions and the bytes that they touch.
-/

namespace Xv6
namespace Vm

open Lib

/-! ## The functions -/

/-- `memmove` into a page. -/
def putBytes (page : Page) (off : Nat) (bytes : List UInt8) : Page := fun i =>
  if off ≤ i then (bytes[i - off]?).getD (page i) else page i

/-- `memmove` out of a page. -/
def getBytes (page : Page) (off n : Nat) : List UInt8 := (List.range n).map fun i => page (off + i)

/-- The body of the loop of `copyout`, with the bytes that are left. -/
def copyoutOne (pagetable : Nat) : Nat × List UInt8 → Prog Phys (Int ⊕ Nat × List UInt8)
  | (dstva, src) =>
    if 0 < src.length then do
      let va0 := pgrounddown dstva
      let pa0 ← walkaddr pagetable va0
      if pa0 = 0 then pure (.inl (-1))
      else
        let n := min (pgsize - (dstva - va0)) src.length
        modify fun s => s.write pa0 (putBytes (s.mem pa0) (dstva - va0) (src.take n))
        pure (.inr (u64 (va0 + pgsize), src.drop n))
    else pure (.inl 0)

/-- `copyout` of the bytes `src`. -/
def copyout (pagetable dstva : Nat) (src : List UInt8) : Prog Phys Int :=
  loop (copyoutOne pagetable) (src.length + 1) (dstva, src)

/-- The body of the loop of `copyin`, with the bytes that are in `dst` already. -/
def copyinOne (pagetable : Nat) :
    Nat × Nat × List UInt8 → Prog Phys (Int × List UInt8 ⊕ Nat × Nat × List UInt8)
  | (srcva, len, dst) =>
    if 0 < len then do
      let va0 := pgrounddown srcva
      let pa0 ← walkaddr pagetable va0
      if pa0 = 0 then pure (.inl (-1, dst))
      else
        let n := min (pgsize - (srcva - va0)) len
        let bytes := getBytes ((← get).mem pa0) (srcva - va0) n
        pure (.inr (u64 (va0 + pgsize), len - n, dst ++ bytes))
    else pure (.inl (0, dst))

/-- `copyin`, which returns the bytes that it has written to `dst` too. -/
def copyin (pagetable srcva len : Nat) : Prog Phys (Int × List UInt8) :=
  loop (copyinOne pagetable) (len + 1) (srcva, len, [])

/-! ## User memory -/

/-- The physical page of virtual page `v`, if it is valid and the user's.  There is no memory
at physical address 0. -/
def userPage (mem : Nat → Page) (t v : Nat) : Option Nat :=
  if v < npages then
    (lookup mem t v).bind fun pte =>
      if pte &&& pteU = 0 ∨ pte2pa pte = 0 then none else some (pte2pa pte)
  else none

/-- The byte at a user address. -/
def userByte (mem : Nat → Page) (t a : Nat) : Option UInt8 :=
  (userPage mem t (a / pgsize)).map fun pa => mem pa (a % pgsize)

/-- The user pages are backed by distinct physical pages, which are not those of the table. -/
structure Backed (mem : Nat → Page) (t : Nat) : Prop where
  table : ∀ v pa, userPage mem t v = some pa → pa ∉ pages mem t
  once : ∀ v v' pa, userPage mem t v = some pa → userPage mem t v' = some pa → v = v'

/-- How many bytes from `va` on the user can access, up to `len`. -/
def reach (mem : Nat → Page) (t : Nat) : Nat → Nat → Nat
  | _, 0 => 0
  | va, len + 1 => if (userPage mem t (va / pgsize)).isSome then reach mem t (va + 1) len + 1 else 0

section User

variable {mem mem' : Nat → Page} {t v va len n : Nat}

/-- A lookup reads the tables only. -/
theorem lookup_congr (hmem : ∀ p ∈ pages mem t, mem' p = mem p) (v : Nat) :
    lookup mem' t v = lookup mem t v := by
  have hsame : node (child mem') t (path v) = node (child mem) t (path v) :=
    node_congr (fun π p hπ hp => child_congr (hmem p ⟨π, by omega, hp⟩)) (path_length v).le
  cases hnode : node (child mem) t (path v) with
  | none => rw [lookup_of_none hnode, lookup_of_none (hsame.trans hnode)]
  | some p =>
    rw [lookup_of_node hnode, lookup_of_node (hsame.trans hnode),
      hmem p ⟨path v, (path_length v).le, hnode⟩]

/-- The tables are the same. -/
theorem pages_congr (hmem : ∀ p ∈ pages mem t, mem' p = mem p) : pages mem' t = pages mem t :=
  nodes_congr fun π p hπ hp => child_congr (hmem p ⟨π, by omega, hp⟩)

/-- The user pages are the same. -/
theorem userPage_congr (hmem : ∀ p ∈ pages mem t, mem' p = mem p) (v : Nat) :
    userPage mem' t v = userPage mem t v := by
  unfold userPage
  rw [lookup_congr hmem]

/-- The result of `walkaddr` on a user address. -/
theorem walkaddr_eq (mem : Nat → Page) (t va : Nat) :
    (if maxva ≤ va then 0 else userPa (lookup mem t (va / pgsize))) =
      (userPage mem t (va / pgsize)).getD 0 := by
  unfold userPage
  by_cases hva : maxva ≤ va
  · have hv : ¬ va / pgsize < npages := by
      unfold npages maxva pgsize at *
      omega
    rw [if_pos hva, if_neg hv]
    rfl
  · rw [if_neg hva, if_pos (div_lt_npages (by omega))]
    cases lookup mem t (va / pgsize) with
    | none => rfl
    | some pte =>
      rw [Option.bind_some, userPa]
      by_cases hu : pte &&& pteU = 0
      · rw [if_pos hu, if_pos (Or.inl hu)]
        rfl
      by_cases hpa : pte2pa pte = 0
      · rw [if_neg hu, if_pos (Or.inr hpa), hpa]
        rfl
      · rw [if_neg hu, if_neg (not_or.mpr ⟨hu, hpa⟩)]
        rfl

/-- A user page is below `MAXVA` and not null. -/
theorem userPage_eq_some {pa : Nat} (h : userPage mem t v = some pa) : v < npages ∧ 0 < pa := by
  unfold userPage at h
  split at h
  next hv =>
    obtain ⟨pte, -, hpte⟩ := Option.bind_eq_some_iff.mp h
    split at hpte
    · cases hpte
    next hnot =>
      cases hpte
      exact ⟨hv, Nat.pos_of_ne_zero fun hzero => hnot (Or.inr hzero)⟩
  next => cases h

theorem pgrounddown_div (va : Nat) : pgrounddown va / pgsize = va / pgsize :=
  Nat.mul_div_cancel _ (by decide)

theorem sub_pgrounddown (va : Nat) : va - pgrounddown va = va % pgsize := by
  have := Nat.div_add_mod' va pgsize
  unfold pgrounddown
  omega

/-- The bytes that one round transfers lie in one page. -/
theorem same_page {i : Nat} (hi : i < pgsize - va % pgsize) :
    (va + i) / pgsize = va / pgsize ∧ (va + i) % pgsize = va % pgsize + i := by
  unfold pgsize at *
  omega

/-- The address of the next round. -/
theorem next_page (hv : va / pgsize < npages) (hlt : pgsize - va % pgsize ≤ n) :
    u64 (pgrounddown va + pgsize) = va + min (pgsize - va % pgsize) n := by
  rw [Nat.min_eq_left hlt, pgrounddown, u64_next hv]
  unfold pgsize
  omega

/-- The reach depends on the user pages. -/
theorem reach_congr (h : ∀ v, userPage mem' t v = userPage mem t v) (va len : Nat) :
    reach mem' t va len = reach mem t va len := by
  induction len generalizing va with
  | zero => rfl
  | succ len ih => rw [reach, reach, h, ih]

/-- The reach is within the length. -/
theorem reach_le (mem : Nat → Page) (t va len : Nat) : reach mem t va len ≤ len := by
  induction len generalizing va with
  | zero => exact Nat.le_refl 0
  | succ len ih =>
    have := ih (va + 1)
    unfold reach
    split
    · omega
    · omega

/-- Nothing can be reached from an unmapped page. -/
theorem reach_of_none (h : userPage mem t (va / pgsize) = none) : reach mem t va len = 0 := by
  cases len with
  | zero => rfl
  | succ len => simp [reach, h]

/-- The bytes of the first `n` addresses are within reach. -/
theorem reach_add (hn : n ≤ len) (h : ∀ i < n, userPage mem t ((va + i) / pgsize) ≠ none) :
    reach mem t va len = n + reach mem t (va + n) (len - n) := by
  induction n generalizing va len with
  | zero => simp
  | succ n ih =>
    obtain ⟨len, rfl⟩ : ∃ k, len = k + 1 := ⟨len - 1, by omega⟩
    have hfirst := Option.isSome_iff_ne_none.mpr (h 0 (by omega))
    rw [Nat.add_zero] at hfirst
    rw [reach, if_pos hfirst, ih (by omega) fun i hi => by
      rw [Nat.add_assoc, Nat.add_comm 1 i]
      exact h (i + 1) (by omega)]
    rw [Nat.add_assoc va 1 n, Nat.add_comm 1 n, Nat.add_sub_add_right]
    omega

/-- The first address that is out of reach. -/
theorem reach_spec (mem : Nat → Page) (t va len : Nat) :
    (∀ i < reach mem t va len, userPage mem t ((va + i) / pgsize) ≠ none) ∧
      (reach mem t va len < len →
        userPage mem t ((va + reach mem t va len) / pgsize) = none) := by
  induction len generalizing va with
  | zero => exact ⟨fun i hi => absurd hi (Nat.not_lt_zero i), fun h => absurd h (Nat.lt_irrefl 0)⟩
  | succ len ih =>
    obtain ⟨hin, hout⟩ := ih (va + 1)
    unfold reach
    split
    next hsome =>
      refine ⟨?_, ?_⟩
      · rintro (_ | i) hi
        · exact Option.isSome_iff_ne_none.mp hsome
        · rw [Nat.add_comm i 1, ← Nat.add_assoc]
          exact hin i (by omega)
      · intro hlt
        rw [Nat.add_comm (reach mem t (va + 1) len) 1, ← Nat.add_assoc]
        exact hout (by omega)
    next hnone =>
      refine ⟨fun i hi => absurd hi (Nat.not_lt_zero i), fun _ => ?_⟩
      exact Option.not_isSome_iff_eq_none.mp hnone

/-- All bytes are within reach if no page is missing. -/
theorem reach_eq_iff :
    reach mem t va len = len ↔
      ∀ a, va ≤ a → a < va + len → userPage mem t (a / pgsize) ≠ none := by
  obtain ⟨hin, hout⟩ := reach_spec mem t va len
  constructor
  · intro heq a hge hlt
    obtain ⟨i, rfl⟩ := Nat.exists_eq_add_of_le hge
    exact hin i (by omega)
  · intro hall
    by_contra hne
    have hle := reach_le mem t va len
    exact hall _ (Nat.le_add_right _ _) (by omega) (hout (by omega))

/-- What a round that starts at `va` has to do with the rest. -/
theorem round_spec {pa : Nat} (hlen : 0 < len) (hpage : userPage mem t (va / pgsize) = some pa)
    (hn : min (pgsize - va % pgsize) len = n) :
    0 < n ∧ n ≤ len ∧ n ≤ pgsize - va % pgsize ∧
      reach mem t va len = n + reach mem t (va + n) (len - n) ∧
      (len - n = 0 ∨ u64 (pgrounddown va + pgsize) = va + n) := by
  have hoff : va % pgsize < pgsize := Nat.mod_lt va (by decide)
  refine ⟨by omega, by omega, by omega, ?_, ?_⟩
  · refine reach_add (by omega) fun i hi => ?_
    rw [(same_page (show i < pgsize - va % pgsize by omega)).1, hpage]
    exact Option.some_ne_none pa
  · by_cases hdone : len ≤ n
    · exact Or.inl (by omega)
    · right
      rw [next_page (n := len) (userPage_eq_some hpage).1 (by omega), hn]

end User

/-! ## `copyout` -/

/-- The bytes have been written to the user addresses from `va` on, and to no others. -/
structure Poked (s s' : Phys) (t va : Nat) (bytes : List UInt8) : Prop where
  free : s'.free = s.free
  written : ∀ i c pa, bytes[i]? = some c → userPage s.mem t ((va + i) / pgsize) = some pa →
    s'.mem pa ((va + i) % pgsize) = c
  frame : ∀ pa off, (∀ i < bytes.length, userPage s.mem t ((va + i) / pgsize) = some pa →
    (va + i) % pgsize ≠ off) → s'.mem pa off = s.mem pa off

section Copyout

variable {s s' s'' : Phys} {t va : Nat} {bytes bytes' src : List UInt8}

/-- Nothing is written. -/
theorem Poked.nil (s : Phys) (t va : Nat) : Poked s s t va [] where
  free := rfl
  written i c pa hc := by simp at hc
  frame _ _ _ := rfl

/-- The tables are not written to. -/
theorem Poked.table (h : Poked s s' t va bytes) (hb : Backed s.mem t) :
    ∀ p ∈ pages s.mem t, s'.mem p = s.mem p := by
  intro p hp
  funext off
  exact h.frame p off fun i _ hpage => absurd hp (hb.table _ _ hpage)

/-- Writing keeps the user pages. -/
theorem Poked.userPage (h : Poked s s' t va bytes) (hb : Backed s.mem t) (v : Nat) :
    Vm.userPage s'.mem t v = Vm.userPage s.mem t v :=
  userPage_congr (h.table hb) v

/-- Writing keeps the pages apart from the tables. -/
theorem Poked.backed (h : Poked s s' t va bytes) (hb : Backed s.mem t) : Backed s'.mem t where
  table v pa hv := by
    rw [pages_congr (h.table hb)]
    exact hb.table v pa (h.userPage hb v ▸ hv)
  once v v' pa hv hv' := hb.once v v' pa (h.userPage hb v ▸ hv) (h.userPage hb v' ▸ hv')

/-- Different addresses are different places. -/
theorem Backed.place_inj {mem : Nat → Page} {a a' pa : Nat} (hb : Backed mem t)
    (ha : Vm.userPage mem t (a / pgsize) = some pa)
    (ha' : Vm.userPage mem t (a' / pgsize) = some pa) (hoff : a % pgsize = a' % pgsize) :
    a = a' := by
  have hpage := hb.once _ _ pa ha ha'
  rw [← Nat.div_add_mod a pgsize, ← Nat.div_add_mod a' pgsize, hpage, hoff]

/-- One transfer after the other. -/
theorem Poked.append (hb : Backed s.mem t) (h : Poked s s' t va bytes)
    (h' : Poked s' s'' t (va + bytes.length) bytes') : Poked s s'' t va (bytes ++ bytes') where
  free := h'.free.trans h.free
  written i c pa hc hpage := by
    by_cases hi : i < bytes.length
    · rw [List.getElem?_append_left hi] at hc
      -- The second transfer does not touch this byte.
      rw [h'.frame pa _ ?_]
      · exact h.written i c pa hc hpage
      · intro j hj hpage' heq
        rw [h.userPage hb] at hpage'
        have := hb.place_inj hpage' hpage heq
        omega
    · rw [List.getElem?_append_right (by omega)] at hc
      have hsum : va + bytes.length + (i - bytes.length) = va + i := by omega
      have hwritten := h'.written (i - bytes.length) c pa hc
      rw [hsum, h.userPage hb] at hwritten
      exact hwritten hpage
  frame pa off hnot := by
    rw [h'.frame pa off ?_, h.frame pa off ?_]
    · intro i hi
      exact hnot i (by rw [List.length_append]; omega)
    · intro i hi hpage
      rw [h.userPage hb, Nat.add_assoc] at hpage
      rw [Nat.add_assoc]
      exact hnot (bytes.length + i) (by rw [List.length_append]; omega) hpage

/-- The transfer of one round. -/
theorem Poked.page {pa : Nat}
    (hpa : Vm.userPage s.mem t (va / pgsize) = some pa)
    (hlen : bytes.length ≤ pgsize - va % pgsize) :
    Poked s (s.write pa (putBytes (s.mem pa) (va % pgsize) bytes)) t va bytes where
  free := rfl
  written i c pa' hc hpage := by
    have hi : i < bytes.length := (List.getElem?_eq_some_iff.mp hc).1
    obtain ⟨hdiv, hmod⟩ := same_page (show i < pgsize - va % pgsize by omega)
    rw [hdiv, hpa] at hpage
    cases hpage
    rw [mem_write_same, hmod, putBytes, if_pos (Nat.le_add_right _ _), Nat.add_sub_cancel_left, hc]
    rfl
  frame pa' off hnot := by
    obtain rfl | hpp := eq_or_ne pa' pa
    · rw [mem_write_same, putBytes]
      split
      next hle =>
        by_cases hi : off - va % pgsize < bytes.length
        · obtain ⟨hdiv, hmod⟩ := same_page (show off - va % pgsize < pgsize - va % pgsize by omega)
          have := hnot _ hi (by rw [hdiv]; exact hpa)
          omega
        · rw [List.getElem?_eq_none (by omega)]
          rfl
      next => rfl
    · rw [mem_write_of_ne _ _ hpp]

/-- A transfer of no bytes does not depend on the address. -/
theorem Poked.of_nil {va' : Nat} (h : Poked s s' t va []) : Poked s s' t va' [] where
  free := h.free
  written i c pa hc := by simp at hc
  frame pa off _ := h.frame pa off fun i hi => absurd hi (Nat.not_lt_zero i)

/-- The loop of `copyout`. -/
theorem wp_copyoutLoop {fuel : Nat} {Q : Int → Phys → Prop} {E : String → Phys → Prop}
    (hb : Backed s.mem t) (hfuel : src.length < fuel)
    (hQ : ∀ s', Poked s s' t va (src.take (reach s.mem t va src.length)) →
      Q (if reach s.mem t va src.length = src.length then 0 else -1) s') :
    Wp (loop (copyoutOne t) fuel (va, src)) s Q E := by
  induction fuel generalizing s va src with
  | zero => exact absurd hfuel (Nat.not_lt_zero _)
  | succ fuel ih =>
    unfold loop
    rw [wp_bind]
    unfold copyoutOne
    dsimp only
    by_cases hlen : 0 < src.length
    · rw [if_pos hlen, wp_bind]
      apply wp_walkaddr_lookup
      rw [walkaddr_eq, pgrounddown_div, sub_pgrounddown]
      cases hpage : userPage s.mem t (va / pgsize) with
      | none =>
        have hzero : reach s.mem t va src.length = 0 := reach_of_none hpage
        rw [hzero] at hQ
        have hnil := hQ s (Poked.nil s t va)
        rw [if_neg (by omega)] at hnil
        exact wp_pure.mpr (wp_pure.mpr hnil)
      | some pa =>
        have hpa := (userPage_eq_some hpage).2
        rw [Option.getD_some, if_neg (by omega), wp_bind_modify, wp_pure]
        generalize hn : min (pgsize - va % pgsize) src.length = n
        obtain ⟨hpos, hle, hroom, hsplit, hnext⟩ := round_spec hlen hpage hn
        have hlenn : (src.take n).length = n := by rw [List.length_take]; omega
        have hpoked := Poked.page hpage (show (src.take n).length ≤ _ by rw [hlenn]; exact hroom)
        generalize s.write pa (putBytes (s.mem pa) (va % pgsize) (src.take n)) = s₁ at hpoked ⊢
        have hreach : ∀ a k, reach s₁.mem t a k = reach s.mem t a k :=
          fun a k => reach_congr (hpoked.userPage hb) a k
        rw [← List.length_drop] at hnext
        refine ih (hpoked.backed hb) (by rw [List.length_drop]; omega) fun s' hs' => ?_
        have hrest : reach s₁.mem t (u64 (pgrounddown va + pgsize)) (src.drop n).length =
            reach s.mem t (va + n) (src.length - n) := by
          rw [hreach, ← List.length_drop]
          obtain hnil | hva := hnext
          · rw [hnil, reach, reach]
          · rw [hva]
        rw [hrest] at hs' ⊢
        have hpoked' : Poked s₁ s' t (va + (src.take n).length)
            ((src.drop n).take (reach s.mem t (va + n) (src.length - n))) := by
          rw [hlenn]
          obtain hnil | hva := hnext
          · rw [List.eq_nil_of_length_eq_zero hnil, List.take_nil] at hs' ⊢
            exact hs'.of_nil
          · rw [hva] at hs'
            exact hs'
        have hall := hpoked.append hb hpoked'
        rw [← List.take_add, ← hsplit] at hall
        have hdone := hQ s' hall
        rw [List.length_drop]
        have hiff : (reach s.mem t (va + n) (src.length - n) = src.length - n) ↔
            reach s.mem t va src.length = src.length := by
          rw [hsplit]
          omega
        rw [if_congr hiff rfl rfl]
        exact hdone
    · have hnil : src = [] := List.eq_nil_of_length_eq_zero (by omega)
      subst hnil
      rw [if_neg hlen]
      exact wp_pure.mpr (wp_pure.mpr (hQ s (Poked.nil s t va)))

/-- `copyout` writes the bytes before the first bad page. -/
theorem wp_copyout {Q : Int → Phys → Prop} {E : String → Phys → Prop} (hb : Backed s.mem t)
    (hQ : ∀ s', Poked s s' t va (src.take (reach s.mem t va src.length)) →
      Q (if reach s.mem t va src.length = src.length then 0 else -1) s') :
    Wp (copyout t va src) s Q E :=
  wp_copyoutLoop hb (Nat.lt_succ_self _) hQ

end Copyout

/-! ## `copyin` -/

/-- The bytes at `n` user addresses. -/
def userBytes (mem : Nat → Page) (t va n : Nat) : List UInt8 :=
  (List.range n).map fun i => (userByte mem t (va + i)).getD 0

section Copyin

variable {s : Phys} {t va len n : Nat} {mem : Nat → Page}

/-- No bytes. -/
@[simp]
theorem userBytes_zero (mem : Nat → Page) (t va : Nat) : userBytes mem t va 0 = [] :=
  rfl

/-- The number of bytes. -/
theorem userBytes_length (mem : Nat → Page) (t va n : Nat) : (userBytes mem t va n).length = n := by
  simp [userBytes]

/-- One range after another. -/
theorem userBytes_add (m n : Nat) :
    userBytes mem t va (m + n) = userBytes mem t va m ++ userBytes mem t (va + m) n := by
  simp [userBytes, List.range_add, Nat.add_assoc]

/-- The bytes that a round reads. -/
theorem getBytes_eq {pa : Nat} (hpage : userPage mem t (va / pgsize) = some pa)
    (hn : n ≤ pgsize - va % pgsize) :
    getBytes (mem pa) (va % pgsize) n = userBytes mem t va n := by
  refine List.map_congr_left fun i hi => ?_
  rw [List.mem_range] at hi
  obtain ⟨hdiv, hmod⟩ := same_page (show i < pgsize - va % pgsize by omega)
  rw [userByte, hdiv, hmod, hpage]
  rfl

/-- A byte within reach. -/
theorem userBytes_getElem? {i : Nat} (hi : i < reach mem t va len) :
    (userBytes mem t va (reach mem t va len))[i]? = userByte mem t (va + i) := by
  have hsome := (reach_spec mem t va len).1 i hi
  obtain ⟨pa, hpa⟩ := Option.ne_none_iff_exists'.mp hsome
  rw [userBytes, List.getElem?_map, List.getElem?_range hi, Option.map_some, userByte, hpa]
  rfl

/-- The loop of `copyin`. -/
theorem wp_copyinLoop {fuel : Nat} {dst : List UInt8} {Q : Int × List UInt8 → Phys → Prop}
    {E : String → Phys → Prop} (hfuel : len < fuel)
    (hQ : Q (if reach s.mem t va len = len then 0 else -1,
      dst ++ userBytes s.mem t va (reach s.mem t va len)) s) :
    Wp (loop (copyinOne t) fuel (va, len, dst)) s Q E := by
  induction fuel generalizing va len dst with
  | zero => exact absurd hfuel (Nat.not_lt_zero _)
  | succ fuel ih =>
    unfold loop
    rw [wp_bind]
    unfold copyinOne
    dsimp only
    by_cases hlen : 0 < len
    · rw [if_pos hlen, wp_bind]
      apply wp_walkaddr_lookup
      rw [walkaddr_eq, pgrounddown_div, sub_pgrounddown]
      cases hpage : userPage s.mem t (va / pgsize) with
      | none =>
        rw [reach_of_none hpage, if_neg (by omega), userBytes_zero, List.append_nil] at hQ
        exact wp_pure.mpr (wp_pure.mpr hQ)
      | some pa =>
        have hpa := (userPage_eq_some hpage).2
        rw [Option.getD_some, if_neg (by omega), wp_bind_get, wp_pure]
        generalize hn : min (pgsize - va % pgsize) len = n
        obtain ⟨hpos, hle, hroom, hsplit, hnext⟩ := round_spec hlen hpage hn
        refine ih (by omega) ?_
        have hrest : reach s.mem t (u64 (pgrounddown va + pgsize)) (len - n) =
              reach s.mem t (va + n) (len - n) ∧
            userBytes s.mem t (u64 (pgrounddown va + pgsize)) (reach s.mem t (va + n) (len - n)) =
              userBytes s.mem t (va + n) (reach s.mem t (va + n) (len - n)) := by
          obtain hnil | hva := hnext
          · rw [hnil, reach, reach, userBytes_zero, userBytes_zero]
            exact ⟨rfl, rfl⟩
          · rw [hva]
            exact ⟨rfl, rfl⟩
        rw [hrest.1, hrest.2, getBytes_eq hpage hroom, List.append_assoc, ← userBytes_add, ← hsplit]
        have hiff : (reach s.mem t (va + n) (len - n) = len - n) ↔
            reach s.mem t va len = len := by
          rw [hsplit]
          omega
        rw [if_congr hiff rfl rfl]
        exact hQ
    · obtain rfl : len = 0 := by omega
      rw [reach, if_pos rfl, userBytes_zero, List.append_nil] at hQ
      rw [if_neg hlen]
      exact wp_pure.mpr (wp_pure.mpr hQ)

/-- `copyin` reads the bytes before the first bad page. -/
theorem wp_copyin {Q : Int × List UInt8 → Phys → Prop} {E : String → Phys → Prop}
    (hQ : Q (if reach s.mem t va len = len then 0 else -1,
      userBytes s.mem t va (reach s.mem t va len)) s) : Wp (copyin t va len) s Q E :=
  wp_copyinLoop (Nat.lt_succ_self _) hQ

end Copyin

/-! ## The two functions together -/

/-- What a call of `copyout` does. -/
structure Copyout (s s' : Phys) (t va : Nat) (src : List UInt8) (r : Int) : Prop where
  result : r = 0 ∨ r = -1
  ok_iff : r = 0 ↔
    ∀ a, va ≤ a → a < va + src.length → userPage s.mem t (a / pgsize) ≠ none
  /-- The user's pages and the free list are what they were. -/
  pages : ∀ v, userPage s'.mem t v = userPage s.mem t v
  free : s'.free = s.free
  written : r = 0 → ∀ i c, src[i]? = some c → userByte s'.mem t (va + i) = some c
  /-- A failing call has at most written the bytes before the first bad page. -/
  failed : r = -1 → ∃ k < src.length, userPage s.mem t ((va + k) / pgsize) = none ∧
    (∀ i < k, userPage s.mem t ((va + i) / pgsize) ≠ none) ∧
    ∀ pa off, s'.mem pa off ≠ s.mem pa off →
      ∃ i < k, userPage s.mem t ((va + i) / pgsize) = some pa ∧ (va + i) % pgsize = off
  /-- Only bytes of the user in the range are written. -/
  confined : ∀ pa off, s'.mem pa off ≠ s.mem pa off →
    ∃ i < src.length, userPage s.mem t ((va + i) / pgsize) = some pa ∧ (va + i) % pgsize = off
  /-- What was written can be read back. -/
  back : r = 0 → copyin t va src.length s' = .ok (0, src) s'

/-- What a call of `copyin` does. -/
structure Copyin (s : Phys) (t va len : Nat) (r : Int) (dst : List UInt8) : Prop where
  result : r = 0 ∨ r = -1
  ok_iff : r = 0 ↔ ∀ a, va ≤ a → a < va + len → userPage s.mem t (a / pgsize) ≠ none
  length : r = 0 → dst.length = len
  bytes : ∀ i < dst.length, dst[i]? = userByte s.mem t (va + i)
  failed : r = -1 → dst.length < len ∧ userPage s.mem t ((va + dst.length) / pgsize) = none
  /-- No byte matters but those of the tables and those of the user in the range. -/
  confined : ∀ s₂ : Phys, (∀ p ∈ Vm.pages s.mem t, s₂.mem p = s.mem p) →
    (∀ i < len, ∀ pa, userPage s.mem t ((va + i) / pgsize) = some pa →
      s₂.mem pa ((va + i) % pgsize) = s.mem pa ((va + i) % pgsize)) →
    copyin t va len s₂ = .ok (r, dst) s₂

section Exact

variable {s s' : Phys} {t va len : Nat} {src : List UInt8}

/-- What `copyin` returns. -/
theorem copyin_eq (s : Phys) (t va len : Nat) :
    copyin t va len s = .ok (if reach s.mem t va len = len then 0 else -1,
      userBytes s.mem t va (reach s.mem t va len)) s := by
  have hreturns : Returns (copyin t va len) s fun x s' =>
      x = (if reach s.mem t va len = len then 0 else -1,
        userBytes s.mem t va (reach s.mem t va len)) ∧ s' = s := wp_copyin ⟨rfl, rfl⟩
  obtain ⟨x, s', heq, rfl, rfl⟩ := returns_iff.mp hreturns
  exact heq

theorem result_eq_zero {p : Prop} [Decidable p] : (if p then (0 : Int) else -1) = 0 ↔ p := by
  split
  next h => exact iff_of_true rfl h
  next h => exact iff_of_false (by decide) h

theorem result_eq_neg {p : Prop} [Decidable p] : (if p then (0 : Int) else -1) = -1 ↔ ¬ p := by
  split
  next h => exact iff_of_false (by decide) (not_not.mpr h)
  next h => exact iff_of_true rfl h

/-- The bytes that a transfer has changed. -/
theorem Poked.changed {bytes : List UInt8} {pa off : Nat} (h : Poked s s' t va bytes)
    (hne : s'.mem pa off ≠ s.mem pa off) :
    ∃ i < bytes.length, Vm.userPage s.mem t ((va + i) / pgsize) = some pa ∧
      (va + i) % pgsize = off := by
  by_contra hnot
  push Not at hnot
  exact hne (h.frame pa off hnot)

/-- A byte that has been written. -/
theorem Poked.userByte {bytes : List UInt8} {i : Nat} {c : UInt8} (hb : Backed s.mem t)
    (h : Poked s s' t va bytes) (hc : bytes[i]? = some c)
    (hpage : Vm.userPage s.mem t ((va + i) / pgsize) ≠ none) :
    Vm.userByte s'.mem t (va + i) = some c := by
  obtain ⟨pa, hpa⟩ := Option.ne_none_iff_exists'.mp hpage
  rw [Vm.userByte, h.userPage hb, hpa, Option.map_some, h.written i c pa hc hpa]

/-- `copyout` writes what it can reach. -/
theorem copyout_spec (hb : Backed s.mem t)
    (h : Poked s s' t va (src.take (reach s.mem t va src.length))) :
    Copyout s s' t va src (if reach s.mem t va src.length = src.length then 0 else -1) := by
  have hle := reach_le s.mem t va src.length
  obtain ⟨hin, hout⟩ := reach_spec s.mem t va src.length
  have hlen : (src.take (reach s.mem t va src.length)).length = reach s.mem t va src.length := by
    rw [List.length_take, Nat.min_eq_left hle]
  have hchanged : ∀ pa off, s'.mem pa off ≠ s.mem pa off →
      ∃ i < reach s.mem t va src.length, userPage s.mem t ((va + i) / pgsize) = some pa ∧
        (va + i) % pgsize = off := by
    intro pa off hne
    obtain ⟨i, hi, hplace⟩ := h.changed hne
    exact ⟨i, hlen ▸ hi, hplace⟩
  have hwritten : reach s.mem t va src.length = src.length →
      ∀ i c, src[i]? = some c → userByte s'.mem t (va + i) = some c := by
    intro hall i c hc
    have hi : i < src.length := (List.getElem?_eq_some_iff.mp hc).1
    rw [hall, List.take_length] at h
    exact h.userByte hb hc (hin i (by omega))
  refine ⟨?_, ?_, h.userPage hb, h.free, ?_, ?_, ?_, ?_⟩
  · split
    · exact Or.inl rfl
    · exact Or.inr rfl
  · rw [result_eq_zero]
    exact reach_eq_iff
  · intro hr
    exact hwritten (result_eq_zero.mp hr)
  · intro hr
    have hne := result_eq_neg.mp hr
    exact ⟨reach s.mem t va src.length, by omega, hout (by omega), hin, hchanged⟩
  · intro pa off hne
    obtain ⟨i, hi, hplace⟩ := hchanged pa off hne
    exact ⟨i, by omega, hplace⟩
  · intro hr
    have hall := result_eq_zero.mp hr
    have hall' : reach s'.mem t va src.length = src.length := by
      rw [reach_congr (h.userPage hb), hall]
    have hbytes : userBytes s'.mem t va (reach s'.mem t va src.length) = src := by
      refine List.ext_getElem? fun i => ?_
      by_cases hi : i < src.length
      · rw [userBytes_getElem? (by omega), hwritten hall i src[i] (List.getElem?_eq_getElem hi),
          List.getElem?_eq_getElem hi]
      · rw [List.getElem?_eq_none (by rw [userBytes_length]; omega),
          List.getElem?_eq_none (by omega)]
    rw [copyin_eq, hbytes, if_pos hall']

/-- `copyin` reads what it can reach. -/
theorem copyin_spec (s : Phys) (t va len : Nat) :
    Copyin s t va len (if reach s.mem t va len = len then 0 else -1)
      (userBytes s.mem t va (reach s.mem t va len)) := by
  have hle := reach_le s.mem t va len
  obtain ⟨hin, hout⟩ := reach_spec s.mem t va len
  refine ⟨?_, ?_, ?_, ?_, ?_, ?_⟩
  · split
    · exact Or.inl rfl
    · exact Or.inr rfl
  · rw [result_eq_zero]
    exact reach_eq_iff
  · intro hr
    rw [userBytes_length]
    exact result_eq_zero.mp hr
  · intro i hi
    rw [userBytes_length] at hi
    exact userBytes_getElem? hi
  · intro hr
    have hne := result_eq_neg.mp hr
    rw [userBytes_length]
    exact ⟨by omega, hout (by omega)⟩
  · intro s₂ htable hbytes
    have hpage := userPage_congr htable
    have hsame : userBytes s₂.mem t va (reach s.mem t va len) =
        userBytes s.mem t va (reach s.mem t va len) := by
      refine List.map_congr_left fun i hi => ?_
      rw [List.mem_range] at hi
      obtain ⟨pa, hpa⟩ := Option.ne_none_iff_exists'.mp (hin i hi)
      rw [userByte, userByte, hpage, hpa, Option.map_some, Option.map_some,
        hbytes i (by omega) pa hpa]
    rw [copyin_eq, reach_congr hpage, hsame]

/-- `copyout` and `copyin` return, with 0 exactly if the user can access every page of the
range; they transfer the bytes of the range in order, up to the first bad page, and
touch nothing else. -/
theorem copy_exact (hb : Backed s.mem t) (va : Nat) :
    (∀ src, ∃ r s', copyout t va src s = .ok r s' ∧ Copyout s s' t va src r) ∧
      ∀ len, ∃ r dst, copyin t va len s = .ok (r, dst) s ∧ Copyin s t va len r dst := by
  refine ⟨?_, ?_⟩
  · intro src
    have hreturns : Returns (copyout t va src) s fun r s' => Copyout s s' t va src r :=
      wp_copyout hb fun s' h => copyout_spec hb h
    exact returns_iff.mp hreturns
  · intro len
    exact ⟨_, _, copyin_eq s t va len, copyin_spec s t va len⟩

/-- A table with one page for the user. -/
theorem exists_one_page : ∃ s : Phys,
    Table s 0x80008000 (fill (fun _ => none) 5 1 (mapEntry 0x80100000 (pteR ||| pteW ||| pteU))) ∧
      0x80100000 ∉ pages s.mem 0x80008000 := by
  have hcreate : Wp uvmcreate tinyPool (fun r s => ∀ p, r = some p → Table s p (fun _ => none) ∧
      pages s.mem p = {p} ∧ Owns tinyImage.Ram s {p}) fun _ _ => True := by
    refine wp_uvmcreate owns_tinyPool (fun _ p hp => by cases hp) ?_
    intro p s _ hT hpages _ ht _ q hq
    cases hq
    exact ⟨hT, hpages, by simpa using ht.owns owns_tinyPool⟩
  have hrun : uvmcreate tinyPool = .ok (some 0x80008000) tinyTable := rfl
  obtain ⟨hT, hpages, ho⟩ := hcreate.of_ok hrun _ rfl
  have hmap : Wp (mappages 0x80008000 0x5000 1 0x80100000 (pteR ||| pteW ||| pteU)) tinyTable
      (fun r s => r = true → Table s 0x80008000 (fill (fun _ => none) 5 1
        (mapEntry 0x80100000 (pteR ||| pteW ||| pteU))) ∧
        0x80100000 ∉ pages s.mem 0x80008000) fun _ _ => True := by
    refine wp_mappages hT (hpages ▸ ho) (by decide) (by decide) (by decide) (by decide) 1
      (by decide) ?_ ?_ ?_
    · intro s' hT' ht _ _ _
      refine ⟨hT', fun hmem => ?_⟩
      have hold := (ht.pages _).mp (Or.inl hmem)
      rw [hpages] at hold
      revert hold
      decide
    · intro s' k _ _ _ _ hr
      cases hr
    · exact fun _ _ _ _ _ => trivial
  have hok : outcome (mappages 0x80008000 0x5000 1 0x80100000 (pteR ||| pteW ||| pteU)) tinyTable =
      .ok true := by
    decide +kernel
  obtain ⟨s, hrun⟩ := exists_ok hok
  exact ⟨s, hmap.of_ok hrun rfl⟩

/-- Three bytes at the end of a page whose successor is not mapped. -/
theorem copy_exact_page_end : ∃ s : Phys, Backed s.mem 0x80008000 ∧
    userPage s.mem 0x80008000 5 = some 0x80100000 ∧
    ∃ r s', copyout 0x80008000 0x5ffe [1, 2, 3] s = .ok r s' ∧
      Copyout s s' 0x80008000 0x5ffe [1, 2, 3] r := by
  obtain ⟨s, hT, hpages⟩ := exists_one_page
  have hpage : ∀ v, userPage s.mem 0x80008000 v = if v = 5 then some 0x80100000 else none := by
    intro v
    unfold userPage
    split
    next hv =>
      rw [hT.map v hv]
      obtain rfl | h5 := eq_or_ne v 5
      · decide +kernel
      · rw [if_neg h5, fill, if_neg (by omega)]
        rfl
    next hv =>
      rw [if_neg]
      rintro rfl
      exact hv (by decide)
  have hb : Backed s.mem 0x80008000 := by
    constructor
    · intro v pa hv
      rw [hpage] at hv
      obtain ⟨-, ⟨⟩⟩ := Option.ite_none_right_eq_some.mp hv
      exact hpages
    · intro v v' pa hv hv'
      rw [hpage] at hv hv'
      split at hv
      · split at hv'
        · omega
        · cases hv'
      · cases hv
  exact ⟨s, hb, by rw [hpage, if_pos rfl], (copy_exact hb 0x5ffe).1 [1, 2, 3]⟩

end Exact

end Vm
end Xv6
