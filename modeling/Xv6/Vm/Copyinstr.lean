import Mathlib.Tactic
import Xv6.Vm.Copy

/-!
# Copying strings from a user

`copyinstr` of `vm.c` and `fetchstr` of `syscall.c`.  The string ends at its first NUL; pages
after that one are not looked at.

Main results:

- Theorem {lit}`copyinstr_eq`: the bytes up to the first NUL or the first bad page.
- Theorem {lit}`copyinstr_exact`: when a string is copied, and its length.
-/

namespace Xv6
namespace Vm

open Lib

/-! ## The functions -/

/-- The inner loop of `copyinstr`: the bytes written to `dst`, and `got_null`. -/
def strLoop (page : Page) : Nat → Nat → List UInt8 × Bool
  | _, 0 => ([], false)
  | off, n + 1 =>
    if page off = 0 then ([0], true)
    else
      let (bytes, gotNull) := strLoop page (off + 1) n
      (page off :: bytes, gotNull)

/-- The body of the outer loop. -/
def copyinstrOne (pagetable : Nat) :
    Nat × Nat × List UInt8 → Prog Phys (Int × List UInt8 ⊕ Nat × Nat × List UInt8)
  | (srcva, max, dst) =>
    if 0 < max then do
      let va0 := pgrounddown srcva
      let pa0 ← walkaddr pagetable va0
      if pa0 = 0 then pure (.inl (-1, dst))
      else
        let n := min (pgsize - (srcva - va0)) max
        let (bytes, gotNull) := strLoop ((← get).mem pa0) (srcva - va0) n
        if gotNull then pure (.inl (0, dst ++ bytes))
        else pure (.inr (u64 (va0 + pgsize), max - n, dst ++ bytes))
    else pure (.inl (-1, dst))

/-- `copyinstr`, which returns the bytes that it has written to `dst` too. -/
def copyinstr (pagetable srcva max : Nat) : Prog Phys (Int × List UInt8) :=
  loop (copyinstrOne pagetable) (max + 1) (srcva, max, [])

/-- `strlen`. -/
def strlen : List UInt8 → Nat
  | [] => 0
  | c :: s => if c = 0 then 0 else strlen s + 1

/-- `fetchstr`, with the bytes that it has written to `buf`. -/
def fetchstr (pagetable addr max : Nat) : Prog Phys (Int × List UInt8) := do
  let (err, buf) ← copyinstr pagetable addr max
  if err < 0 then pure (err, buf) else pure ((strlen buf : Int), buf)

/-! ## Strings in lists -/

/-- The bytes up to the first NUL, and whether there is one. -/
def takeStr : List UInt8 → List UInt8 × Bool
  | [] => ([], false)
  | c :: l => if c = 0 then ([0], true) else (c :: (takeStr l).1, (takeStr l).2)

section Lists

variable {l l' : List UInt8} {k : Nat}

/-- A string that has ended. -/
theorem takeStr_append_of_true (h : (takeStr l).2 = true) : takeStr (l ++ l') = takeStr l := by
  induction l with
  | nil => cases h
  | cons c l ih =>
    rw [List.cons_append, takeStr, takeStr]
    by_cases hc : c = 0
    · rw [if_pos hc, if_pos hc]
    · rw [takeStr, if_neg hc] at h
      rw [if_neg hc, if_neg hc, ih h]

/-- A string that goes on. -/
theorem takeStr_append_of_false (h : (takeStr l).2 = false) (l' : List UInt8) :
    (takeStr l).1 = l ∧ takeStr (l ++ l') = (l ++ (takeStr l').1, (takeStr l').2) := by
  induction l with
  | nil => exact ⟨rfl, rfl⟩
  | cons c l ih =>
    by_cases hc : c = 0
    · rw [takeStr, if_pos hc] at h
      cases h
    · rw [takeStr, if_neg hc] at h
      obtain ⟨hself, happ⟩ := ih h
      rw [List.cons_append, takeStr, takeStr, if_neg hc, if_neg hc, hself, happ]
      exact ⟨rfl, rfl⟩

/-- A string is no longer than its source. -/
theorem takeStr_length_le (l : List UInt8) : (takeStr l).1.length ≤ l.length := by
  induction l with
  | nil => exact Nat.le_refl 0
  | cons c l ih =>
    unfold takeStr
    split
    · exact Nat.succ_le_succ (Nat.zero_le _)
    · exact Nat.succ_le_succ ih

/-- A string is found where the first NUL is. -/
theorem takeStr_of_getElem? (hzero : l[k]? = some 0) (hbefore : ∀ j < k, l[j]? ≠ some 0) :
    takeStr l = (l.take (k + 1), true) ∧ strlen (l.take (k + 1)) = k := by
  induction l generalizing k with
  | nil => simp at hzero
  | cons c l ih =>
    cases k with
    | zero =>
      obtain rfl : c = 0 := by simpa using hzero
      exact ⟨rfl, rfl⟩
    | succ k =>
      have hc : c ≠ 0 := by
        rintro rfl
        exact hbefore 0 (Nat.succ_pos k) rfl
      obtain ⟨htake, hlen⟩ := ih (by simpa using hzero) fun j hj => by
        simpa using hbefore (j + 1) (Nat.succ_lt_succ hj)
      rw [takeStr, if_neg hc, htake, List.take_succ_cons, strlen, if_neg hc, hlen]
      exact ⟨rfl, rfl⟩

/-- Where the string ends. -/
theorem takeStr_true (h : (takeStr l).2 = true) :
    ∃ k : Nat, l[k]? = some 0 ∧ ∀ j < k, l[j]? ≠ some 0 := by
  induction l with
  | nil => cases h
  | cons c l ih =>
    by_cases hc : c = 0
    · exact ⟨0, by rw [hc]; rfl, fun j hj => absurd hj (Nat.not_lt_zero j)⟩
    · rw [takeStr, if_neg hc] at h
      obtain ⟨k, hzero, hbefore⟩ := ih h
      refine ⟨k + 1, by simpa using hzero, ?_⟩
      rintro (_ | j) hj
      · simpa using hc
      · simpa using hbefore j (Nat.lt_of_succ_lt_succ hj)

/-- The inner loop on the bytes of a page. -/
theorem strLoop_eq (page : Page) (off n : Nat) :
    strLoop page off n = takeStr (getBytes page off n) := by
  induction n generalizing off with
  | zero => rfl
  | succ n ih =>
    have hcons : getBytes page off (n + 1) = page off :: getBytes page (off + 1) n := by
      simp only [getBytes, List.range_succ_eq_map, List.map_cons, List.map_map, Nat.add_zero]
      refine congrArg _ (List.map_congr_left fun i _ => ?_)
      rw [Function.comp_apply, Nat.succ_eq_add_one, Nat.add_right_comm, Nat.add_assoc]
    rw [strLoop, ih, hcons, takeStr]

end Lists

/-! ## `copyinstr` -/

section Copyinstr

variable {s : Phys} {t va max : Nat}

/-- The results of `copyinstr` for the bytes that the user can access. -/
def strResult (dst bytes : List UInt8) : Int × List UInt8 :=
  (if (takeStr bytes).2 = true then 0 else -1, dst ++ (takeStr bytes).1)

/-- The loop of `copyinstr`. -/
theorem wp_copyinstrLoop {fuel : Nat} {dst : List UInt8} {Q : Int × List UInt8 → Phys → Prop}
    {E : String → Phys → Prop} (hfuel : max < fuel)
    (hQ : Q (strResult dst (userBytes s.mem t va (reach s.mem t va max))) s) :
    Wp (loop (copyinstrOne t) fuel (va, max, dst)) s Q E := by
  induction fuel generalizing va max dst with
  | zero => exact absurd hfuel (Nat.not_lt_zero _)
  | succ fuel ih =>
    have hnil : strResult dst [] = (-1, dst) := by
      unfold strResult
      rw [takeStr, List.append_nil]
      rfl
    unfold loop
    rw [wp_bind]
    unfold copyinstrOne
    dsimp only
    by_cases hmax : 0 < max
    · rw [if_pos hmax, wp_bind]
      apply wp_walkaddr_lookup
      rw [walkaddr_eq, pgrounddown_div, sub_pgrounddown]
      cases hpage : userPage s.mem t (va / pgsize) with
      | none =>
        rw [reach_of_none hpage, userBytes_zero, hnil] at hQ
        exact wp_pure.mpr (wp_pure.mpr hQ)
      | some pa =>
        have hpa := (userPage_eq_some hpage).2
        rw [Option.getD_some, if_neg (by omega), wp_bind_get]
        generalize hn : min (pgsize - va % pgsize) max = n
        obtain ⟨hpos, hle, hroom, hsplit, hnext⟩ := round_spec hmax hpage hn
        rw [strLoop_eq, getBytes_eq hpage hroom]
        rw [hsplit, userBytes_add] at hQ
        cases hnull : (takeStr (userBytes s.mem t va n)).2 with
        | true =>
          rw [strResult, takeStr_append_of_true hnull, hnull] at hQ
          exact wp_pure.mpr (wp_pure.mpr hQ)
        | false =>
          obtain ⟨hself, happ⟩ := takeStr_append_of_false hnull
            (userBytes s.mem t (va + n) (reach s.mem t (va + n) (max - n)))
          rw [strResult, happ, ← List.append_assoc] at hQ
          refine wp_pure.mpr (ih (by omega) ?_)
          rw [hself]
          obtain hzero | hva := hnext
          · rw [hzero, reach, userBytes_zero] at hQ ⊢
            exact hQ
          · rw [hva]
            exact hQ
    · obtain rfl : max = 0 := by omega
      rw [reach, userBytes_zero, hnil] at hQ
      rw [if_neg hmax]
      exact wp_pure.mpr (wp_pure.mpr hQ)

/-- `copyinstr` copies the bytes up to the first NUL or the first bad page. -/
theorem copyinstr_eq (s : Phys) (t va max : Nat) :
    copyinstr t va max s =
      .ok (strResult [] (userBytes s.mem t va (reach s.mem t va max))) s := by
  have hreturns : Returns (copyinstr t va max) s fun x s' =>
      x = strResult [] (userBytes s.mem t va (reach s.mem t va max)) ∧ s' = s :=
    wp_copyinstrLoop (Nat.lt_succ_self _) ⟨rfl, rfl⟩
  obtain ⟨x, s', heq, rfl, rfl⟩ := returns_iff.mp hreturns
  exact heq

/-- A string of `k` characters at a user address, with its NUL. -/
def IsStr (mem : Nat → Page) (t va k : Nat) : Prop :=
  userByte mem t (va + k) = some 0 ∧ ∀ j < k, ∃ c, c ≠ 0 ∧ userByte mem t (va + j) = some c

/-- What a call of `copyinstr` or `fetchstr` does. -/
structure CopiesStr (s : Phys) (t va max : Nat) (r : Int) (dst : List UInt8) : Prop where
  result : r = 0 ∨ r = -1
  ok_iff : r = 0 ↔ ∃ k < max, IsStr s.mem t va k
  bytes : ∀ k < max, IsStr s.mem t va k →
    dst.length = k + 1 ∧ ∀ j ≤ k, dst[j]? = userByte s.mem t (va + j)
  length : dst.length ≤ max
  fetchstr : fetchstr t va max s =
    .ok (if r < 0 then -1 else ((dst.length - 1 : Nat) : Int), dst) s

/-- A byte of an unmapped page. -/
theorem userByte_eq_none {mem : Nat → Page} {a : Nat} :
    userByte mem t a = none ↔ userPage mem t (a / pgsize) = none := by
  rw [userByte, Option.map_eq_none_iff]

/-- The characters of a string are within reach. -/
theorem IsStr.lt_reach {k : Nat} (h : IsStr s.mem t va k) (hk : k < max) :
    k < reach s.mem t va max := by
  by_contra hnot
  obtain ⟨-, hout⟩ := reach_spec s.mem t va max
  have hnone := userByte_eq_none.mpr (hout (by omega))
  obtain hlt | heq := Nat.lt_or_eq_of_le (Nat.not_lt.mp hnot)
  · obtain ⟨c, -, hc⟩ := h.2 _ hlt
    rw [hc] at hnone
    cases hnone
  · rw [heq, h.1] at hnone
    cases hnone

/-- ... and the first NUL is where the string ends. -/
theorem IsStr.takeStr {k : Nat} (h : IsStr s.mem t va k) (hk : k < max) :
    takeStr (userBytes s.mem t va (reach s.mem t va max)) =
        ((userBytes s.mem t va (reach s.mem t va max)).take (k + 1), true) ∧
      strlen ((userBytes s.mem t va (reach s.mem t va max)).take (k + 1)) = k := by
  have hlt := h.lt_reach hk
  apply takeStr_of_getElem?
  · rw [userBytes_getElem? hlt]
    exact h.1
  · intro j hj
    obtain ⟨c, hc, hbyte⟩ := h.2 j hj
    rw [userBytes_getElem? (by omega), hbyte]
    intro heq
    exact hc (Option.some.inj heq)

/-- A NUL within reach ends a string. -/
theorem isStr_of_takeStr
    (h : (takeStr (userBytes s.mem t va (reach s.mem t va max))).2 = true) :
    ∃ k < max, IsStr s.mem t va k := by
  obtain ⟨k, hzero, hbefore⟩ := takeStr_true h
  have hk : k < reach s.mem t va max := by
    have := (List.getElem?_eq_some_iff.mp hzero).1
    rwa [userBytes_length] at this
  have hle := reach_le s.mem t va max
  rw [userBytes_getElem? hk] at hzero
  refine ⟨k, by omega, hzero, fun j hj => ?_⟩
  have hj' : j < reach s.mem t va max := by omega
  have hne := hbefore j hj
  rw [userBytes_getElem? hj'] at hne
  cases hbyte : userByte s.mem t (va + j) with
  | none =>
    have hsome := (reach_spec s.mem t va max).1 j hj'
    exact absurd (userByte_eq_none.mp hbyte) hsome
  | some c => exact ⟨c, fun hc => hne (by rw [hbyte, hc]), rfl⟩

/-- `copyinstr` returns 0 exactly if a string of fewer than `max` characters starts at the
address; then it copies that string with its NUL, and `fetchstr` returns the length. -/
theorem copyinstr_exact (s : Phys) (t va max : Nat) :
    ∃ r dst, copyinstr t va max s = .ok (r, dst) s ∧ CopiesStr s t va max r dst := by
  refine ⟨_, _, copyinstr_eq s t va max, ?_⟩
  generalize hbytes : userBytes s.mem t va (reach s.mem t va max) = bytes
  have hlen : bytes.length ≤ max := by
    rw [← hbytes, userBytes_length]
    exact reach_le s.mem t va max
  rw [List.nil_append]
  refine ⟨?_, ?_, ?_, ?_, ?_⟩
  · split
    · exact Or.inl rfl
    · exact Or.inr rfl
  · rw [result_eq_zero]
    constructor
    · intro h
      exact isStr_of_takeStr (hbytes ▸ h)
    · rintro ⟨k, hk, hstr⟩
      have htake := (hstr.takeStr hk).1
      rw [hbytes] at htake
      rw [htake]
  · intro k hk hstr
    have htake := (hstr.takeStr hk).1
    have hlt := hstr.lt_reach hk
    rw [hbytes] at htake
    have hlen' : bytes.length = reach s.mem t va max := by rw [← hbytes, userBytes_length]
    rw [htake]
    refine ⟨by rw [List.length_take]; omega, fun j hj => ?_⟩
    rw [List.getElem?_take_of_lt (by omega), ← hbytes, userBytes_getElem? (by omega)]
  · exact (takeStr_length_le bytes).trans hlen
  · have hrun : fetchstr t va max s = (if (strResult [] bytes).1 < 0 then
        pure ((strResult [] bytes).1, (strResult [] bytes).2)
        else pure ((strlen (strResult [] bytes).2 : Int), (strResult [] bytes).2) :
          Prog Phys _) s := by
      unfold fetchstr
      change EStateM.bind (copyinstr t va max) _ s = _
      unfold EStateM.bind
      rw [copyinstr_eq, hbytes]
    rw [hrun, strResult, List.nil_append]
    cases hnull : (takeStr bytes).2 with
    | true =>
      obtain ⟨k, hk, hstr⟩ := isStr_of_takeStr (hbytes ▸ hnull)
      obtain ⟨htake, hstrlen⟩ := hstr.takeStr hk
      have hlt := hstr.lt_reach hk
      rw [hbytes] at htake hstrlen
      have hlen' : bytes.length = reach s.mem t va max := by rw [← hbytes, userBytes_length]
      rw [htake]
      dsimp only
      rw [hstrlen, List.length_take, Nat.min_eq_left (by omega), Nat.add_sub_cancel]
      rfl
    | false => rfl

end Copyinstr

end Vm
end Xv6
