import Mathlib.Tactic
import Xv6.Exec.Load

/-!
# The argument stack of a program

The second half of `exec` in `exec.c`: two pages above the program, the first without access for
the user, and the arguments in the second, from its end downwards.

Main results:

- Theorem {lit}`wp_pushStrings`: the strings, if they fit.
- Theorem {lit}`Loaded.wp_buildStack`: the two pages, the strings and the array of pointers.
-/

namespace Xv6
namespace Exec

open Lib Vm Function

/-! ## The functions -/

def maxarg : Nat := 32

/-- A subtraction of two `uint64`s. -/
def sub64 (a b : Nat) : Nat := u64 (a + 2 ^ 64 - b)

/-- `sp -= n; sp -= sp % 16`. -/
def push (sp n : Nat) : Nat := sub64 (sub64 sp n) (sub64 sp n % 16)

/-- The `k` bytes of a number. -/
def leBytes (w k : Nat) : List UInt8 := (List.range k).map fun i => UInt8.ofNat (w / 256 ^ i)

/-- The bytes of a `uint64`. -/
def wordBytes (w : Nat) : List UInt8 := leBytes w 8

/-- The loop over `argv`, with the pointers that are in `ustack` already. -/
def pushStrings (pagetable stackbase : Nat) :
    List (List UInt8) → Nat → Nat → List Nat → Prog Phys (Option (Nat × List Nat))
  | [], _, sp, ustack => pure (some (sp, ustack))
  | str :: argv, argc, sp, ustack =>
    if maxarg ≤ argc then pure none
    else
      let sp := push sp (str.length + 1)
      if sp < stackbase then pure none
      else do
        let r ← copyout pagetable sp (str ++ [0])
        if r < 0 then pure none
        else pushStrings pagetable stackbase argv (argc + 1) sp (ustack ++ [sp])

/-- The pointers, from `sp` on. -/
def pushPointers (pagetable stackbase sp : Nat) (ustack : List Nat) : Prog Phys (Option Nat) :=
  let sp := push sp ((ustack.length + 1) * 8)
  if sp < stackbase then pure none
  else do
    let r ← copyout pagetable sp ((ustack ++ [0]).flatMap wordBytes)
    if r < 0 then pure none else pure (some sp)

/-- The guard page and the arguments, below `sz`: the final `sp`, unless something went wrong. -/
def stackArgs (pagetable sz : Nat) (argv : List (List UInt8)) : Prog Phys (Option Nat) := do
  uvmclear pagetable (sub64 sz (2 * pgsize))
  match ← pushStrings pagetable (sub64 sz pgsize) argv 0 sz [] with
  | none => pure none
  | some (sp, ustack) => pushPointers pagetable (sub64 sz pgsize) sp ustack

/-- Two more pages and the arguments: the new `sz`, and `sp`. -/
def buildStack (K : Image) (pagetable sz : Nat) (argv : List (List UInt8)) :
    Prog Phys (Nat × Option Nat) := do
  let sz1 ← uvmalloc K pagetable (pgroundup sz) (u64 (pgroundup sz + 2 * pgsize))
  if sz1 = 0 then pure (pgroundup sz, none)
  else
    let sp ← stackArgs pagetable sz1 argv
    pure (sz1, sp)

/-! ## The layout -/

/-- `n` rounded up to a multiple of 16. -/
def pad (n : Nat) : Nat := (n + 15) / 16 * 16

/-- The room for the strings. -/
def room : List (List UInt8) → Nat
  | [] => 0
  | str :: argv => pad (str.length + 1) + room argv

/-- Where the strings are, when the first one ends below `sp`. -/
def pointers (sp : Nat) : List (List UInt8) → List Nat
  | [] => []
  | str :: argv => (sp - pad (str.length + 1)) :: pointers (sp - pad (str.length + 1)) argv

section Layout

variable {sp n : Nat} {argv : List (List UInt8)}

/-- Pushing onto an aligned stack. -/
theorem push_eq (hsp : sp < 2 ^ 64) (halign : sp % 16 = 0) (hn : n ≤ sp) :
    push sp n = sp - pad n := by
  have hsub : sub64 sp n = sp - n := by
    unfold sub64 u64
    omega
  rw [push, hsub]
  unfold sub64 u64 pad
  omega

/-- Padding adds bytes. -/
theorem le_pad (n : Nat) : n ≤ pad n := by
  unfold pad
  omega

/-- Padding aligns. -/
theorem pad_mod (n : Nat) : pad n % 16 = 0 :=
  Nat.mul_mod_left _ _

/-- There is a pointer for each argument. -/
theorem length_pointers (sp : Nat) (argv : List (List UInt8)) :
    (pointers sp argv).length = argv.length := by
  induction argv generalizing sp with
  | nil => rfl
  | cons str argv ih => rw [pointers, List.length_cons, List.length_cons, ih]

/-- Every string lies between the last one and `sp`. -/
theorem pointers_bounds {i ptr : Nat} {str : List UInt8} (hroom : room argv ≤ sp)
    (hstr : argv[i]? = some str) (hptr : (pointers sp argv)[i]? = some ptr) :
    sp - room argv ≤ ptr ∧ ptr + (str.length + 1) ≤ sp := by
  induction argv generalizing sp i with
  | nil => cases hstr
  | cons str' argv ih =>
    have hpad := le_pad (str'.length + 1)
    rw [room] at hroom ⊢
    rw [pointers] at hptr
    cases i with
    | zero =>
      cases hstr
      cases hptr
      omega
    | succ i =>
      obtain ⟨hge, hle⟩ := ih (by omega) hstr hptr
      omega

end Layout

/-! ## Writing into one page -/

section Page

variable {s : Phys} {t v pa va : Nat} {bytes : List UInt8} {E : String → Phys → Prop}

/-- A `copyout` that stays in one page. -/
theorem wp_copyout_page {Q : Int → Phys → Prop} (hpage : userPage s.mem t (va / pgsize) = some pa)
    (hpos : 0 < bytes.length) (hroom : va % pgsize + bytes.length ≤ pgsize)
    (hQ : Q 0 (s.write pa (putBytes (s.mem pa) (va % pgsize) bytes))) :
    Wp (copyout t va bytes) s Q E := by
  have hpa := (userPage_eq_some hpage).2
  have hmin : min (pgsize - va % pgsize) bytes.length = bytes.length := by omega
  obtain ⟨n, hn⟩ := Nat.exists_eq_succ_of_ne_zero (Nat.ne_of_gt hpos)
  unfold copyout
  rw [hn, loop, wp_bind, copyoutOne, if_pos hpos, wp_bind]
  apply wp_walkaddr_lookup
  rw [walkaddr_eq, pgrounddown_div, sub_pgrounddown, hpage, Option.getD_some,
    if_neg (Nat.ne_of_gt hpa), wp_bind_modify, wp_pure, hmin, List.take_length, List.drop_length]
  dsimp only
  rw [loop, wp_bind, copyoutOne, if_neg (by simp), wp_pure]
  exact wp_pure.mpr hQ

/-- The bytes are stored at `ptr`, in the page that starts at `base`. -/
def Stored (c : Page) (base ptr : Nat) (bytes : List UInt8) : Prop :=
  ∀ j b, bytes[j]? = some b → c (ptr - base + j) = b

/-- The bytes that have been written. -/
theorem putBytes_of_mem {c : Page} {off j : Nat} {b : UInt8} (hb : bytes[j]? = some b) :
    putBytes c off bytes (off + j) = b := by
  rw [putBytes, if_pos (Nat.le_add_right off j), Nat.add_sub_cancel_left, hb, Option.getD_some]

/-- The bytes behind. -/
theorem putBytes_of_ge {c : Page} {off i : Nat} (hi : off + bytes.length ≤ i) :
    putBytes c off bytes i = c i := by
  rw [putBytes, if_pos (by omega), List.getElem?_eq_none (by omega), Option.getD_none]

theorem write_same (s : Phys) (pa : Nat) : s.write pa (s.mem pa) = s := by
  unfold Pool.write
  rw [update_eq_self]

theorem write_write (s : Phys) (pa : Nat) (c c' : Page) :
    (s.write pa c).write pa c' = s.write pa c' := by
  unfold Pool.write
  rw [update_idem]

/-- Writing a user page keeps the tables. -/
theorem mem_write_of_pages {c : Page} (hpa : pa ∉ pages s.mem t) :
    ∀ p ∈ pages s.mem t, (s.write pa c).mem p = s.mem p := by
  rintro p hp
  refine mem_write_of_ne s c ?_
  rintro rfl
  exact hpa hp

/-- ... and the user pages. -/
theorem userPage_write {c : Page} (hpa : pa ∉ pages s.mem t) (v : Nat) :
    userPage (s.write pa c).mem t v = userPage s.mem t v :=
  userPage_congr (mem_write_of_pages hpa) v

/-- ... and the pages of the tables. -/
theorem pages_write {c : Page} (hpa : pa ∉ pages s.mem t) :
    pages (s.write pa c).mem t = pages s.mem t :=
  pages_congr (mem_write_of_pages hpa)

/-- The strings are pushed, or there is no room for one of them. -/
theorem wp_pushStrings {argv : List (List UInt8)} {argc sp : Nat} {ustack : List Nat}
    {Q : Option (Nat × List Nat) → Phys → Prop} (hpage : userPage s.mem t v = some pa)
    (hpa : pa ∉ pages s.mem t) (hv : 1 ≤ v) (hargc : argc + argv.length ≤ maxarg)
    (hstr : ∀ str ∈ argv, str.length < pgsize) (halign : sp % 16 = 0)
    (hge : v * pgsize ≤ sp) (hle : sp ≤ (v + 1) * pgsize)
    (hfits : ∀ c : Page, room argv ≤ sp - v * pgsize →
      (∀ off, sp - v * pgsize ≤ off → c off = s.mem pa off) →
      (∀ (i : Nat) str ptr, argv[i]? = some str → (pointers sp argv)[i]? = some ptr →
        Stored c (v * pgsize) ptr (str ++ [0])) →
      Q (some (sp - room argv, ustack ++ pointers sp argv)) (s.write pa c))
    (hnot : ∀ c : Page, ¬ room argv ≤ sp - v * pgsize → Q none (s.write pa c)) :
    Wp (pushStrings t (v * pgsize) argv argc sp ustack) s Q E := by
  have hvlt := (userPage_eq_some hpage).1
  induction argv generalizing s argc sp ustack Q with
  | nil =>
    have hdone := hfits (s.mem pa) (Nat.zero_le _) (fun _ _ => rfl) fun i str ptr hstr => by
      cases hstr
    rw [write_same] at hdone
    rw [room, Nat.sub_zero, pointers, List.append_nil] at hdone
    exact wp_pure.mpr hdone
  | cons str argv ih =>
    rw [List.length_cons] at hargc
    obtain ⟨hlen, hrest⟩ := List.forall_mem_cons.mp hstr
    have hbound : str.length + 1 ≤ sp ∧ sp < 2 ^ 64 := by
      unfold npages maxva pgsize at *
      omega
    have hpush : push sp (str.length + 1) = sp - pad (str.length + 1) :=
      push_eq hbound.2 halign hbound.1
    have hpad := le_pad (str.length + 1)
    have hpadmod := pad_mod (str.length + 1)
    have hroom : room (str :: argv) = pad (str.length + 1) + room argv := rfl
    unfold pushStrings
    rw [if_neg (by omega)]
    dsimp only
    rw [hpush]
    generalize hn : pad (str.length + 1) = n at hpad hpadmod hroom hpush ⊢
    have hnsp : n ≤ sp := by
      rw [← hn]
      unfold pad
      omega
    split
    next hlow =>
      have hfail := hnot (s.mem pa) (by omega)
      rw [write_same] at hfail
      exact wp_pure.mpr hfail
    next hhigh =>
      have hdiv : (sp - n) / pgsize = v := by
        refine (Nat.div_eq_iff (by decide)).mpr ⟨?_, ?_⟩
        · omega
        · unfold pgsize at *
          omega
      have hmod : (sp - n) % pgsize = sp - n - v * pgsize := by
        have := Nat.div_add_mod (sp - n) pgsize
        rw [hdiv, Nat.mul_comm] at this
        omega
      have hlen1 : (str ++ [0]).length = str.length + 1 := by simp
      rw [wp_bind]
      refine wp_copyout_page (by rw [hdiv]; exact hpage) (by omega) ?_ ?_
      · rw [hmod, hlen1]
        unfold pgsize at *
        omega
      rw [if_neg (by decide), hmod]
      generalize hc₁ : putBytes (s.mem pa) (sp - n - v * pgsize) (str ++ [0]) = c₁
      refine ih (s := s.write pa c₁) ?_ ?_ (by omega) hrest ?_ ?_ (by omega) ?_ ?_
      · rw [userPage_write hpa]
        exact hpage
      · rw [pages_write hpa]
        exact hpa
      · omega
      · omega
      · intro c hfit habove hstored
        rw [write_write]
        have hbelow : sp - n - v * pgsize + (str.length + 1) ≤ sp - v * pgsize := by omega
        have hkept : ∀ off, sp - n - v * pgsize ≤ off → c off = c₁ off := by
          intro off hoff
          rw [habove off hoff, mem_write_same]
        have hall := hfits c (by omega) (fun off hoff => ?_) fun i str' ptr hstr' hptr => ?_
        · rw [pointers, hn, ← hn, hroom, hn] at hall
          rw [List.append_assoc, Nat.sub_sub]
          exact hall
        · rw [hkept off (by omega), ← hc₁, putBytes_of_ge (by rw [hlen1]; omega)]
        · rw [pointers, hn] at hptr
          cases i with
          | zero =>
            cases hstr'
            cases hptr
            intro j b hb
            rw [hkept _ (Nat.le_add_right _ _), ← hc₁]
            exact putBytes_of_mem hb
          | succ i => exact hstored i str' ptr hstr' hptr
      · intro c hunfit
        rw [write_write]
        exact hnot c (by omega)

/-- A word has 8 bytes. -/
theorem length_wordBytes (w : Nat) : (wordBytes w).length = 8 := by
  simp [wordBytes, leBytes]

theorem length_flatMap_wordBytes (ws : List Nat) :
    (ws.flatMap wordBytes).length = ws.length * 8 := by
  simp [List.length_flatMap, length_wordBytes]

/-- The pointers are pushed, or there is no room for them. -/
theorem wp_pushPointers {sp : Nat} {ustack : List Nat} {Q : Option Nat → Phys → Prop}
    (hpage : userPage s.mem t v = some pa) (hv : 1 ≤ v) (hlen : ustack.length ≤ maxarg)
    (halign : sp % 16 = 0) (hge : v * pgsize ≤ sp) (hle : sp ≤ (v + 1) * pgsize)
    (hfits : ∀ c : Page, pad ((ustack.length + 1) * 8) ≤ sp - v * pgsize →
      (∀ off, sp - v * pgsize ≤ off → c off = s.mem pa off) →
      Stored c (v * pgsize) (sp - pad ((ustack.length + 1) * 8))
        ((ustack ++ [0]).flatMap wordBytes) →
      Q (some (sp - pad ((ustack.length + 1) * 8))) (s.write pa c))
    (hnot : ¬ pad ((ustack.length + 1) * 8) ≤ sp - v * pgsize → Q none s) :
    Wp (pushPointers t (v * pgsize) sp ustack) s Q E := by
  have hvlt := (userPage_eq_some hpage).1
  have hbound : (ustack.length + 1) * 8 ≤ sp ∧ sp < 2 ^ 64 := by
    unfold maxarg at hlen
    unfold npages maxva pgsize at *
    omega
  have hwords : ((ustack ++ [0]).flatMap wordBytes).length = (ustack.length + 1) * 8 := by
    rw [length_flatMap_wordBytes, List.length_append, List.length_singleton]
  have hpad := le_pad ((ustack.length + 1) * 8)
  have hpadsp : pad ((ustack.length + 1) * 8) ≤ sp := by
    unfold pad
    omega
  unfold pushPointers
  dsimp only
  rw [push_eq hbound.2 halign hbound.1]
  generalize pad ((ustack.length + 1) * 8) = n at *
  split
  next hlow => exact wp_pure.mpr (hnot (by omega))
  next hhigh =>
    have hdiv : (sp - n) / pgsize = v := by
      refine (Nat.div_eq_iff (by decide)).mpr ⟨by omega, ?_⟩
      unfold pgsize at *
      omega
    have hmod : (sp - n) % pgsize = sp - n - v * pgsize := by
      have := Nat.div_add_mod (sp - n) pgsize
      rw [hdiv, Nat.mul_comm] at this
      omega
    rw [wp_bind]
    refine wp_copyout_page (by rw [hdiv]; exact hpage) (by omega) ?_ ?_
    · rw [hmod, hwords]
      unfold pgsize at *
      omega
    rw [if_neg (by decide), hmod]
    refine wp_pure.mpr (hfits _ (by omega) (fun off hoff => ?_) fun j b hb => putBytes_of_mem hb)
    exact putBytes_of_ge (by rw [hwords]; omega)

end Page

/-! ## The guard page -/

section Guard

variable {pte : Nat}

/-- `uvmclear` keeps the address. -/
theorem pte2pa_clearU (pte : Nat) : pte2pa (clearU pte) = pte2pa pte := by
  have hmask : (2 ^ 64 - 1 - pteU) >>> 10 = 2 ^ 54 - 1 := by decide
  rw [pte2pa, pte2pa, clearU, Nat.shiftRight_and_distrib, hmask, Nat.and_two_pow_sub_one_eq_mod,
    Nat.shiftLeft_eq, Nat.shiftLeft_eq]
  unfold u64
  omega

/-- `uvmclear` clears the user flag. -/
theorem pteFlags_clearU (hflags : pteFlags pte = userPerm ||| pteV) :
    pteFlags (clearU pte) = 15 := by
  have hcomm : pteFlags (clearU pte) = pteFlags pte &&& (2 ^ 64 - 1 - pteU) := by
    rw [pteFlags, clearU, pteFlags, Nat.and_assoc, Nat.and_comm (2 ^ 64 - 1 - pteU),
      ← Nat.and_assoc]
  rw [hcomm, hflags]
  decide

end Guard

/-! ## The whole stack -/

/-- The strings and the pointers fit in one page. -/
def Fits (argv : List (List UInt8)) : Prop :=
  room argv + pad ((argv.length + 1) * 8) ≤ pgsize

/-- The value of `sp` in the end. -/
def stackTop (sz : Nat) (argv : List (List UInt8)) : Nat :=
  sz - room argv - pad ((argv.length + 1) * 8)

/-- The address space with its stack, above a program of `n` pages. -/
structure Built (K : Image) (s : Phys) (t n : Nat) (M : Nat → Option Nat) (img : Nat → UInt8)
    (argv : List (List UInt8)) : Prop where
  space : Space K s t (n + 2) M
  tops : Tops M
  usable : ∀ v pte, v < n → M v = some pte → pteFlags pte = userPerm ||| pteV
  guard : ∃ pte, M n = some pte ∧ pte &&& pteU = 0
  below : ∀ a < (n + 1) * pgsize, byteOf s M a = img a
  fits : Fits argv
  stack : ∃ pa, userPage s.mem t (n + 1) = some pa ∧
    Stored (s.mem pa) ((n + 1) * pgsize) (stackTop ((n + 2) * pgsize) argv)
      ((pointers ((n + 2) * pgsize) argv ++ [0]).flatMap wordBytes) ∧
    ∀ (i : Nat) str ptr, argv[i]? = some str →
      (pointers ((n + 2) * pgsize) argv)[i]? = some ptr →
      Stored (s.mem pa) ((n + 1) * pgsize) ptr (str ++ [0])

section Build

variable {K : Image} {s s' : Phys} {t n sz : Nat} {M M' : Nat → Option Nat} {img : Nat → UInt8}
variable {argv : List (List UInt8)} {E : String → Phys → Prop}

/-- `uvmclear` of the page below the stack. -/
theorem Loaded.wp_guard {Q : Unit → Phys → Prop} {s₁ : Phys} {M₁ : Nat → Option Nat}
    (h : Loaded K s t sz M img) (h₁ : Space K s₁ t (npg sz + 2) M₁)
    (hgrown : Grown s s₁ (npg sz) (npg sz + 2) M M₁)
    (hQ : ∀ s' M', Space K s' t (npg sz + 2) M' → Agree (npg sz) M M' →
      (∃ pte, M' (npg sz) = some pte ∧ pte &&& pteU = 0) →
      M' (npg sz + 1) = M₁ (npg sz + 1) →
      (∀ a < (npg sz + 2) * pgsize, byteOf s' M' a = img a) →
      Trade s₁ s' (owned s₁.mem t (npg sz + 2) M₁) (owned s'.mem t (npg sz + 2) M') →
      Q () s') :
    Wp (uvmclear t (npg sz * pgsize)) s₁ Q E := by
  obtain ⟨hloading, -, hbytes⟩ := h.grown h₁ hgrown
  generalize hn : npg sz = n at *
  obtain ⟨pte, hpte, -⟩ := h₁.leaf n (by omega)
  have hdiv : n * pgsize / pgsize = n := Nat.mul_div_cancel _ (by decide)
  have hle := h₁.le
  refine wp_uvmclear h₁.table (h₁.owns.subset Set.subset_union_left) ?_ ?_ ?_
  · unfold userMax npages maxva pgsize at *
    omega
  · rw [hdiv, hpte]
    exact fun hnone => absurd hnone (Option.some_ne_none pte)
  · intro s' hT hpages htrade
    rw [hdiv, hpte, Option.map_some] at hT
    generalize hM' : update M₁ n (some (clearU pte)) = M' at hT
    have hguard : M' n = some (clearU pte) := by
      rw [← hM']
      exact update_self ..
    have hother : ∀ v, v ≠ n → M' v = M₁ v := by
      intro v hv
      rw [← hM']
      exact update_of_ne hv ..
    have hflags := hloading.usable n pte (by omega) hpte
    -- the same physical pages as before
    have hpageOf : ∀ v, pageOf M' v = pageOf M₁ v := by
      intro v
      obtain rfl | hv := eq_or_ne v n
      · rw [pageOf_of_some hguard, pageOf_of_some hpte, pte2pa_clearU]
      · rw [pageOf, pageOf, hother v hv]
    have hsome : ∀ v pte', M' v = some pte' → ∃ pte'', M₁ v = some pte'' ∧
        pte2pa pte'' = pte2pa pte' := by
      intro v pte' hpte'
      obtain rfl | hv := eq_or_ne v n
      · obtain rfl := Option.some.inj (hguard.symm.trans hpte')
        exact ⟨pte, hpte, (pte2pa_clearU pte).symm⟩
      · exact ⟨pte', (hother v hv).symm.trans hpte', rfl⟩
    have hback : backing M' 0 (n + 2) = backing M₁ 0 (n + 2) := by
      ext q
      constructor
      · rintro ⟨v, pte', hge, hlt, hpte', rfl⟩
        obtain ⟨pte'', hpte'', hpa⟩ := hsome v pte' hpte'
        exact ⟨v, pte'', hge, hlt, hpte'', hpa⟩
      · rintro ⟨v, pte', hge, hlt, hpte', rfl⟩
        obtain rfl | hv := eq_or_ne v n
        · obtain rfl := Option.some.inj (hpte.symm.trans hpte')
          exact ⟨v, _, hge, hlt, hguard, pte2pa_clearU pte⟩
        · exact ⟨v, pte', hge, hlt, (hother v hv).trans hpte', rfl⟩
    have hwide : Trade s₁ s' (owned s₁.mem t (n + 2) M₁) (owned s'.mem t (n + 2) M') := by
      rw [owned, owned, hback, hpages]
      refine htrade.widen ?_ ?_
      · rintro q ⟨v, pte', -, hlt, hpte', rfl⟩
        exact h₁.sep v pte' (by omega) hpte'
      · rintro q ⟨v, pte', -, hlt, hpte', rfl⟩
        exact h₁.notMem_free (by omega) hpte'
    refine hQ s' M' ⟨hT, h₁.le, ?_, ?_, ?_, ?_, hwide.owns h₁.owns⟩ ?_ ⟨_, hguard, ?_⟩
      (hother _ (by omega)) ?_ hwide
    · intro v hv
      obtain rfl | hvn := eq_or_ne v n
      · refine ⟨_, hguard, ?_⟩
        rw [pteFlags_clearU hflags]
        decide
      · rw [hother v hvn]
        exact h₁.leaf v hv
    · intro v hge hlt
      rw [hother v (by omega)]
      exact h₁.none v hge hlt
    · intro v v' pte₁ pte₂ hv hv' hpte₁ hpte₂ heq
      obtain ⟨pte₁', h₁', hpa₁⟩ := hsome v pte₁ hpte₁
      obtain ⟨pte₂', h₂', hpa₂⟩ := hsome v' pte₂ hpte₂
      exact h₁.once v v' pte₁' pte₂' hv hv' h₁' h₂' (by rw [hpa₁, hpa₂, heq])
    · intro v pte' hv hpte'
      obtain ⟨pte'', hpte'', hpa⟩ := hsome v pte' hpte'
      rw [hpages, ← hpa]
      exact h₁.sep v pte'' hv hpte''
    · intro v hv
      obtain hlt | hge := hv
      · rw [hother v (by omega)]
        exact hgrown.agree v (Or.inl hlt)
      · rw [hother v (by omega)]
        exact hgrown.agree v (Or.inr hge)
    · rw [and_pteU, pteFlags_clearU hflags]
      decide
    · intro a ha
      have hv : a / pgsize < n + 2 := Nat.div_lt_of_lt_mul (by rw [Nat.mul_comm]; exact ha)
      obtain ⟨pte', hpte', -⟩ := h₁.leaf _ hv
      rw [← hbytes a ha, byteOf, byteOf, hpageOf, pageOf_of_some hpte',
        htrade.frame _ (h₁.sep _ pte' hv hpte') (h₁.notMem_free hv hpte')]

/-- The room for the strings is aligned. -/
theorem room_mod (argv : List (List UInt8)) : room argv % 16 = 0 := by
  induction argv with
  | nil => rfl
  | cons str argv ih =>
    have := pad_mod (str.length + 1)
    rw [room]
    omega

/-- The arguments, when the two pages are there. -/
theorem Loaded.wp_stackArgs {Q : Option Nat → Phys → Prop} {s₁ : Phys} {M₁ : Nat → Option Nat}
    (h : Loaded K s t sz M img) (h₁ : Space K s₁ t (npg sz + 2) M₁)
    (hgrown : Grown s s₁ (npg sz) (npg sz + 2) M M₁)
    (hargs : argv.length ≤ maxarg) (hstr : ∀ str ∈ argv, str.length < pgsize)
    (hbuilt : ∀ s' M', Built K s' t (npg sz) M' img argv →
      Trade s₁ s' (owned s₁.mem t (npg sz + 2) M₁) (owned s'.mem t (npg sz + 2) M') →
      Q (some (stackTop ((npg sz + 2) * pgsize) argv)) s')
    (hbad : ∀ s' M', ¬ Fits argv → Space K s' t (npg sz + 2) M' → Tops M' →
      (∀ a < (npg sz + 1) * pgsize, byteOf s' M' a = img a) →
      Trade s₁ s' (owned s₁.mem t (npg sz + 2) M₁) (owned s'.mem t (npg sz + 2) M') →
      Q none s') :
    Wp (stackArgs t ((npg sz + 2) * pgsize) argv) s₁ Q E := by
  have hram := h.loading.le_ram
  have hsub : sub64 ((npg sz + 2) * pgsize) (2 * pgsize) = npg sz * pgsize := by
    unfold sub64 u64 pgsize
    omega
  have hbase : sub64 ((npg sz + 2) * pgsize) pgsize = (npg sz + 1) * pgsize := by
    unfold sub64 u64 pgsize
    omega
  unfold stackArgs
  rw [hsub, hbase, wp_bind]
  refine h.wp_guard h₁ hgrown fun s₂ M₂ h₂ hagree hguard htop hbytes htrade => ?_
  have htops := h.tops.congr hagree
  -- the page of the stack
  obtain ⟨p, hp, -, -⟩ := hgrown.fresh (npg sz + 1) (by omega) (by omega)
  have hpte := htop.trans hp
  have hu : mapEntry p userPerm 0 &&& pteU ≠ 0 := by
    rw [and_pteU, mapEntry_flags (by decide)]
    decide
  have hv : npg sz + 1 < npg sz + 2 := Nat.lt_succ_self _
  have hpage := h₂.userPage hv hpte hu
  have hnotin := h₂.sep _ _ hv hpte
  have hwrite := fun c => h₂.write hv hpte c
  have hbelow : ∀ c a, a < (npg sz + 1) * pgsize →
      byteOf (s₂.write (pte2pa (mapEntry p userPerm 0)) c) M₂ a = img a := by
    intro c a ha
    have hout : ¬ a / pgsize = npg sz + 1 :=
      Nat.ne_of_lt (Nat.div_lt_of_lt_mul (by rw [Nat.mul_comm]; exact ha))
    have ha' : a < (npg sz + 2) * pgsize := lt_of_lt_of_le ha (Nat.mul_le_mul_right _ (by omega))
    rw [byteOf_write h₂ hv hpte c ha', if_neg hout]
    exact hbytes a ha'
  generalize pte2pa (mapEntry p userPerm 0) = pa at hpage hnotin hwrite hbelow
  generalize hn : npg sz = n at *
  have hsp16 : (n + 2) * pgsize % 16 = 0 := by
    unfold pgsize
    omega
  have hroom16 := room_mod argv
  have hwidth : (n + 2) * pgsize - (n + 1) * pgsize = pgsize := by
    unfold pgsize
    omega
  have hlow : (n + 1) * pgsize ≤ (n + 2) * pgsize := Nat.mul_le_mul_right _ (by omega)
  rw [wp_bind]
  refine wp_pushStrings hpage hnotin (by omega) (by omega) hstr hsp16 hlow (Nat.le_refl _) ?_ ?_
  · intro c hfit habove hstored
    dsimp only
    rw [List.nil_append]
    rw [hwidth] at hfit
    have hsub' : (n + 2) * pgsize - room argv - (n + 1) * pgsize = pgsize - room argv := by omega
    have hpage' : userPage (s₂.write pa c).mem t (n + 1) = some pa := by
      rw [userPage_write hnotin]
      exact hpage
    refine wp_pushPointers hpage' (by omega) ?_ (by omega) (by omega) (Nat.sub_le _ _) ?_ ?_
    · rw [length_pointers]
      exact hargs
    · intro c' hfit' habove' hwords
      rw [length_pointers, hsub'] at hfit'
      rw [length_pointers] at hwords ⊢
      rw [hsub'] at habove'
      rw [write_write]
      obtain ⟨hspace, htrade₃⟩ := hwrite c'
      refine hbuilt _ M₂ ⟨hspace, htops, ?_, hguard, hbelow c', ?_, pa, ?_, ?_, ?_⟩
        (htrade.trans htrade₃)
      · intro v pte hv' hpte'
        rw [hagree v (Or.inl hv')] at hpte'
        exact h.loading.usable v pte (by omega) hpte'
      · unfold Fits
        omega
      · rw [userPage_write hnotin]
        exact hpage
      · rw [mem_write_same]
        exact hwords
      · rw [mem_write_same]
        intro i str ptr hi hptr j b hb
        -- the pointers lie below the strings
        have hptr' := (pointers_bounds (by omega) hi hptr).1
        rw [habove' _ (by omega), mem_write_same]
        exact hstored i str ptr hi hptr j b hb
    · intro hunfit
      rw [length_pointers, hsub'] at hunfit
      obtain ⟨hspace, htrade₃⟩ := hwrite c
      refine hbad _ M₂ ?_ hspace htops (hbelow c) (htrade.trans htrade₃)
      unfold Fits
      omega
  · intro c hunfit
    rw [hwidth] at hunfit
    obtain ⟨hspace, htrade₃⟩ := hwrite c
    refine wp_pure.mpr (hbad _ M₂ ?_ hspace htops (hbelow c) (htrade.trans htrade₃))
    unfold Fits
    omega

/-- Where the stack ends. -/
theorem Loaded.stack_end (h : Loaded K s t sz M img) :
    pgroundup sz = npg sz * pgsize ∧
      u64 (npg sz * pgsize + 2 * pgsize) = (npg sz + 2) * pgsize ∧
      (npg sz + 2) * pgsize ≠ 0 := by
  have hram := h.loading.le_ram
  refine ⟨h.loading.toSpace.pgroundup_npg, ?_, ?_⟩
  · unfold u64 pgsize
    omega
  · unfold pgsize
    omega

/-- The two pages above the program. -/
theorem Loaded.wp_stackPages {Q : Nat → Phys → Prop} (h : Loaded K s t sz M img)
    (hok : ∀ s₁ M₁, Space K s₁ t (npg sz + 2) M₁ → Grown s s₁ (npg sz) (npg sz + 2) M M₁ →
      Trade s s₁ (owned s.mem t (npg sz) M) (owned s₁.mem t (npg sz + 2) M₁) →
      Q ((npg sz + 2) * pgsize) s₁)
    (hfail : ∀ s₁ M₁, Space K s₁ t (npg sz) M₁ → Tops M₁ →
      Trade s s₁ (owned s.mem t (npg sz) M) (owned s₁.mem t (npg sz) M₁) → Q 0 s₁) :
    Wp (uvmalloc K t (pgroundup sz) (u64 (pgroundup sz + 2 * pgsize))) s Q E := by
  obtain ⟨hround, hnew, -⟩ := h.stack_end
  rw [hround, hnew]
  refine h.loading.toSpace.wp_uvmalloc (pgroundup_mul h.loading.le)
    (Nat.mul_le_mul_right _ (Nat.le_add_right _ 2)) ?_ ?_
  · intro s₁ M₁ h₁ hgrown htrade
    rw [npg_mul, max_eq_right (Nat.le_add_right _ 2)] at h₁ hgrown htrade
    exact hok s₁ M₁ h₁ hgrown htrade
  · intro s₁ M₁ h₁ hagree _ htrade
    exact hfail s₁ M₁ h₁ (h.tops.congr hagree) htrade

/-- The whole argument phase. -/
theorem Loaded.wp_buildStack {Q : Nat × Option Nat → Phys → Prop} (h : Loaded K s t sz M img)
    (hargs : argv.length ≤ maxarg) (hstr : ∀ str ∈ argv, str.length < pgsize)
    (hnomem : ∀ s' M', Space K s' t (npg sz) M' → Tops M' →
      Trade s s' (owned s.mem t (npg sz) M) (owned s'.mem t (npg sz) M') →
      Q (npg sz * pgsize, none) s')
    (hbuilt : ∀ s' M', Built K s' t (npg sz) M' img argv →
      Trade s s' (owned s.mem t (npg sz) M) (owned s'.mem t (npg sz + 2) M') →
      Q ((npg sz + 2) * pgsize, some (stackTop ((npg sz + 2) * pgsize) argv)) s')
    (hbad : ∀ s' M', ¬ Fits argv → Space K s' t (npg sz + 2) M' → Tops M' →
      Trade s s' (owned s.mem t (npg sz) M) (owned s'.mem t (npg sz + 2) M') →
      Q ((npg sz + 2) * pgsize, none) s') :
    Wp (buildStack K t sz argv) s Q E := by
  obtain ⟨hround, -, hne⟩ := h.stack_end
  unfold buildStack
  rw [wp_bind]
  refine h.wp_stackPages ?_ ?_
  · intro s₁ M₁ h₁ hgrown htrade
    rw [if_neg hne, wp_bind]
    refine h.wp_stackArgs h₁ hgrown hargs hstr ?_ ?_
    · exact fun s' M' hb htrade' => wp_pure.mpr (hbuilt s' M' hb (htrade.trans htrade'))
    · exact fun s' M' hfit h' htops _ htrade' =>
        wp_pure.mpr (hbad s' M' hfit h' htops (htrade.trans htrade'))
  · intro s₁ M₁ h₁ htops htrade
    rw [if_pos rfl, hround]
    exact wp_pure.mpr (hnomem s₁ M₁ h₁ htops htrade)

end Build

end Exec
end Xv6
