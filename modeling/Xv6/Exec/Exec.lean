import Mathlib.Tactic
import Xv6.Exec.Args
import Xv6.Lib.Extent

/-!
# `exec`

`exec` of `exec.c` on the memory of the machine.  The file is given by its bytes and the arguments
by their strings.

Main results:

- Theorem {lit}`wp_exec`: `exec` returns, and what the new program finds in its memory.
- Theorem {lit}`exec_argument_stack`: the arguments, and when `exec` fails over them.
- Theorem {lit}`exec_loads_image_iff`: the image is the one of the file, unless an offset does
  not fit in 32 bits.
- Theorem {lit}`exec_loads_beyond_file`: a segment beyond the end of the file is loaded.
-/

namespace Xv6
namespace Exec

open Lib Vm

/-! ## The function -/

/-- The fields of the process that `exec` reads. -/
structure Proc where
  pagetable : Nat
  sz : Nat
  trapframe : Nat

/-- The fields that it sets, and its result. -/
structure Started where
  pagetable : Nat
  sz : Nat
  sp : Nat
  a1 : Nat
  epc : Nat
  argc : Nat

/-- The label `bad`. -/
def bad (K : Image) (pagetable sz : Nat) : Prog Phys (Option Started) := do
  procFreepagetable K pagetable sz
  pure none

/-- `exec` up to the point where it commits to the new image. -/
def loadProgram (K : Image) (trapframe : Nat) (file : List UInt8) (argv : List (List UInt8)) :
    Prog Phys (Option Started) :=
  let bytes := readBytes file 0 elfhdrSize
  let elf := elfhdr bytes
  if bytes.length ≠ elfhdrSize then pure none
  else if elf.magic ≠ elfMagic then pure none
  else do
    match ← procPagetable K trapframe with
    | none => pure none
    | some pagetable =>
      let r ← loadHeaders K file pagetable elf.phnum (uint elf.phoff) 0
      if r.1 then do
        let a ← buildStack K pagetable r.2 argv
        match a.2 with
        | none => bad K pagetable a.1
        | some sp => pure (some ⟨pagetable, a.1, sp, sp, elf.entry, argv.length⟩)
      else bad K pagetable r.2

/-- `exec`, when `namei` has found the file. -/
def exec (K : Image) (p : Proc) (file : List UInt8) (argv : List (List UInt8)) :
    Prog Phys (Option Started) := do
  match ← loadProgram K p.trapframe file argv with
  | none => pure none
  | some x =>
    procFreepagetable K p.pagetable p.sz
    pure (some x)

/-! ## The specification -/

section Exec

variable {K : Image} {p : Proc} {s s' : Phys} {t n : Nat} {M M' : Nat → Option Nat}
variable {file : List UInt8} {argv : List (List UInt8)} {A : Set Nat}
variable {E : String → Phys → Prop}

theorem wp_bad {sz : Nat} {Q : Option Started → Phys → Prop} (h : Space K s t n M) (htops : Tops M)
    (hsz : pgroundup sz = n * pgsize) (hzero : sz = 0 → n = 0) (hQ : ∀ s', Q none s') :
    Wp (bad K t sz) s Q E := by
  unfold bad
  rw [wp_bind]
  exact h.wp_procFreepagetable htops hsz hzero fun s' _ => wp_pure.mpr (hQ s')

/-- The new address space while the old one is freed. -/
theorem Built.frame {img : Nat → UInt8} (h : Built K s t n M img argv)
    (hmem : ∀ q ∈ owned s.mem t (n + 2) M, s'.mem q = s.mem q)
    (ho : Owns K.Ram s' (owned s.mem t (n + 2) M)) : Built K s' t n M img argv := by
  obtain ⟨hspace, -⟩ := h.space.frame hmem ho
  obtain ⟨pa, hpage, hwords, hstrings⟩ := h.stack
  have hpages : ∀ q ∈ pages s.mem t, s'.mem q = s.mem q := fun q hq => hmem q (Or.inl hq)
  have hback : ∀ v pte, v < n + 2 → M v = some pte → s'.mem (pte2pa pte) = s.mem (pte2pa pte) :=
    fun v pte hv hpte => hmem _ (Or.inr (mem_backing hv hpte))
  obtain ⟨pte, hpte, rfl⟩ := h.space.of_userPage (by omega) hpage
  have hsame := hback _ pte (by omega) hpte
  refine ⟨hspace, h.tops, h.usable, h.guard, fun a ha => ?_, h.fits, _,
    (userPage_congr hpages _).trans hpage, ?_, ?_⟩
  · have hv : a / pgsize < n + 1 := Nat.div_lt_of_lt_mul (by rw [Nat.mul_comm]; exact ha)
    obtain ⟨pte', hpte', -⟩ := h.space.leaf (a / pgsize) (by omega)
    rw [← h.below a ha, byteOf, byteOf, pageOf_of_some hpte', hback _ pte' (by omega) hpte']
  · rw [hsame]
    exact hwords
  · rw [hsame]
    exact hstrings

/-- An empty address space is a loaded program of no pages. -/
theorem Loaded.empty {t : Nat} (h : Space K s t 0 M) (htops : Tops M) :
    Loaded K s t 0 M fun _ => 0 := by
  refine ⟨⟨h, fun v _ hv => absurd hv (Nat.not_lt_zero v)⟩, htops, fun a ha => ?_, fun _ _ => rfl⟩
  rw [show npg 0 = 0 from rfl, Nat.zero_mul] at ha
  exact absurd ha (Nat.not_lt_zero a)

/-- What a program finds that has been loaded. -/
structure Ready (K : Image) (s : Phys) (file : List UInt8) (argv : List (List UInt8))
    (hs : List Proghdr) (M : Nat → Option Nat) (r : Started) : Prop where
  header : (readBytes file 0 elfhdrSize).length = elfhdrSize
  headers : headersAt file (elfhdr (readBytes file 0 elfhdrSize)).phnum
    (uint (elfhdr (readBytes file 0 elfhdrSize)).phoff) = some hs
  accepted : ∀ ph ∈ hs, ph.type = elfProgLoad → ph.Accepted file
  built : Built K s r.pagetable (npg (hs.foldl Proghdr.grow 0)) M
    (hs.foldl (Proghdr.place file) fun _ => 0) argv
  sz : r.sz = (npg (hs.foldl Proghdr.grow 0) + 2) * pgsize
  sp : r.sp = stackTop r.sz argv
  a1 : r.a1 = r.sp
  argc : r.argc = argv.length

/-- The new program is loaded beside the pages `A`. -/
theorem wp_loadProgram {tf : Nat} {Q : Option Started → Phys → Prop} (ho : Owns K.Ram s A)
    (htf : tf < 2 ^ 64) (hfile : file.length < 2 ^ 31) (hargs : argv.length ≤ maxarg)
    (hstr : ∀ str ∈ argv, str.length < pgsize) (hfail : ∀ s', Q none s')
    (hok : ∀ s' M' hs r, Ready K s' file argv hs M' r → (∀ q ∈ A, s'.mem q = s.mem q) →
      (∀ q ∈ A, q ∉ owned s'.mem r.pagetable (npg (hs.foldl Proghdr.grow 0) + 2) M') →
      Owns K.Ram s' (owned s'.mem r.pagetable (npg (hs.foldl Proghdr.grow 0) + 2) M' ∪ A) →
      Q (some r) s') :
    Wp (loadProgram K tf file argv) s Q E := by
  unfold loadProgram
  dsimp only
  split
  next => exact wp_pure.mpr (hfail s)
  next hlen =>
    split
    next => exact wp_pure.mpr (hfail s)
    next =>
      rw [wp_bind]
      refine wp_procPagetable ho htf (fun s₁ _ => wp_pure.mpr (hfail s₁)) ?_
      intro t s₁ M₁ h₁ htops₁ hapart₁ hsame₁ htrade₁
      have ho₁ := htrade₁.owns ho
      have hfree : ∀ q ∈ A, q ∉ s₁.free := fun q hq hf => ho₁.sep q hf (Or.inr hq)
      dsimp only
      rw [wp_bind]
      refine (Loaded.empty h₁ htops₁).wp_loadHeaders hfile ?_ ?_
      · intro s₂ M₂ hs hhs h₂ htrade₂ hacc
        rw [if_pos rfl, wp_bind]
        refine h₂.wp_buildStack hargs hstr ?_ ?_ ?_
        · intro s₃ M₃ h₃ htops₃ _
          refine wp_bad h₃ htops₃ (pgroundup_mul h₃.le) (fun hzero => ?_) hfail
          unfold pgsize at hzero
          omega
        · -- the pages of `A` stay as they are while the new ones are filled
          intro s₃ M₃ hbuilt htrade₃
          have htrade := htrade₂.trans htrade₃
          refine wp_pure.mpr (hok s₃ M₃ hs _
            ⟨not_not.mp hlen, hhs, hacc, hbuilt, rfl, rfl, rfl, rfl⟩ ?_ ?_ ?_)
          · exact fun q hq => (htrade.frame q (hapart₁ q hq) (hfree q hq)).trans (hsame₁ q hq)
          · exact fun q hq => (htrade.apart (hapart₁ q hq) (hfree q hq)).1
          · exact (htrade₁.trans (htrade.widen hapart₁ hfree)).owns ho
        · intro s₃ M₃ _ h₃ htops₃ _
          refine wp_bad h₃ htops₃ (pgroundup_mul h₃.le) (fun hzero => ?_) hfail
          unfold pgsize at hzero
          omega
      · intro s₂ M₂ sz₂ h₂ htops₂ _
        rw [if_neg Bool.false_ne_true]
        refine wp_bad h₂.toSpace htops₂ h₂.toSpace.pgroundup_npg (fun hzero => ?_) hfail
        dsimp only at hzero
        rw [hzero]
        rfl

/-- `exec` returns, and a success leaves the image and the stack in memory. -/
theorem wp_exec {Q : Option Started → Phys → Prop} (h : Space K s p.pagetable (npg p.sz) M)
    (htops : Tops M) (htf : p.trapframe < 2 ^ 64) (hfile : file.length < 2 ^ 31)
    (hargs : argv.length ≤ maxarg) (hstr : ∀ str ∈ argv, str.length < pgsize)
    (hfail : ∀ s', Q none s')
    (hok : ∀ s' M' hs r, Ready K s' file argv hs M' r → Q (some r) s') :
    Wp (exec K p file argv) s Q E := by
  unfold exec
  rw [wp_bind]
  refine wp_loadProgram h.owns htf hfile hargs hstr (fun s' => wp_pure.mpr (hfail s')) ?_
  intro s₁ M₁ hs r hready hkept hapart ho₁
  obtain ⟨hold, howned⟩ := h.frame hkept (ho₁.subset Set.subset_union_right)
  dsimp only
  rw [wp_bind]
  refine hold.wp_procFreepagetable htops hold.pgroundup_npg (fun hzero => ?_) ?_
  · rw [hzero]
    rfl
  intro s₂ hfreed
  rw [howned] at hfreed
  have hnew : ∀ q ∈ owned s₁.mem r.pagetable (npg (hs.foldl Proghdr.grow 0) + 2) M₁,
      q ∉ owned s.mem p.pagetable (npg p.sz) M := fun q hq hq' => hapart q hq' hq
  have hfree : ∀ q ∈ owned s₁.mem r.pagetable (npg (hs.foldl Proghdr.grow 0) + 2) M₁,
      q ∉ s₁.free := fun q hq hf => ho₁.sep q hf (Or.inl hq)
  rw [Set.union_comm] at ho₁
  have ho₂ := (hfreed.widen hnew hfree).owns ho₁
  rw [Set.empty_union] at ho₂
  have hbuilt := hready.built.frame (fun q hq => hfreed.frame q (hnew q hq) (hfree q hq)) ho₂
  exact wp_pure.mpr (hok s₂ M₁ hs r { hready with built := hbuilt })

end Exec

/-! ## The arguments -/

/-- The user reads these bytes at `va`. -/
def Reads (mem : Nat → Page) (t va : Nat) (bytes : List UInt8) : Prop :=
  ∀ j b, bytes[j]? = some b → userByte mem t (va + j) = some b

/-- The places of the pointer array and of the strings. -/
def regions (sp : Nat) (argv : List (List UInt8)) (ptrs : List Nat) : List Extent :=
  ⟨sp, (argv.length + 1) * 8⟩ ::
    List.zipWith (fun str ptr => ⟨ptr, str.length + 1⟩) argv ptrs

/-- The stack below `sz` holds the arguments. -/
structure ArgStack (mem : Nat → Page) (t sz sp : Nat) (argv : List (List UInt8))
    (ptrs : List Nat) : Prop where
  aligned : sp % 16 = 0
  length : ptrs.length = argv.length
  array : Reads mem t sp ((ptrs ++ [0]).flatMap wordBytes)
  strings : ∀ (i : Nat) str ptr, argv[i]? = some str → ptrs[i]? = some ptr →
    Reads mem t ptr (str ++ [0])
  disjoint : (regions sp argv ptrs).Pairwise fun x y =>
    x.addr + x.len ≤ y.addr ∨ y.addr + y.len ≤ x.addr
  inside : ∀ x ∈ regions sp argv ptrs, sz - pgsize ≤ x.addr ∧ x.addr + x.len ≤ sz
  guard : userPage mem t ((sz - 2 * pgsize) / pgsize) = none

section Args

variable {K : Image} {s : Phys} {t n sp pa : Nat} {M : Nat → Option Nat} {img : Nat → UInt8}
variable {argv : List (List UInt8)}

/-- The strings below `sp`. -/
theorem mem_zipWith_pointers {x : Extent} (hroom : room argv ≤ sp)
    (hx : x ∈ List.zipWith (fun str ptr => (⟨ptr, str.length + 1⟩ : Extent)) argv
      (pointers sp argv)) : sp - room argv ≤ x.addr ∧ x.addr + x.len ≤ sp := by
  obtain ⟨i, hi, rfl⟩ := List.mem_iff_getElem.mp hx
  rw [List.length_zipWith, length_pointers] at hi
  rw [List.getElem_zipWith]
  exact pointers_bounds hroom (List.getElem?_eq_getElem (by omega))
    (List.getElem?_eq_getElem (by rw [length_pointers]; omega))

theorem pairwise_zipWith_pointers (hroom : room argv ≤ sp) :
    (List.zipWith (fun str ptr => (⟨ptr, str.length + 1⟩ : Extent)) argv
      (pointers sp argv)).Pairwise fun x y =>
        x.addr + x.len ≤ y.addr ∨ y.addr + y.len ≤ x.addr := by
  induction argv generalizing sp with
  | nil => exact List.Pairwise.nil
  | cons str argv ih =>
    rw [room] at hroom
    rw [pointers, List.zipWith_cons_cons, List.pairwise_cons]
    refine ⟨fun x hx => Or.inr ?_, ih (by omega)⟩
    exact (mem_zipWith_pointers (by omega) hx).2

theorem Stored.reads {ptr : Nat} {bytes : List UInt8}
    (hpage : userPage s.mem t (n + 1) = some pa)
    (h : Stored (s.mem pa) ((n + 1) * pgsize) ptr bytes) (hge : (n + 1) * pgsize ≤ ptr)
    (hle : ptr + bytes.length ≤ (n + 2) * pgsize) : Reads s.mem t ptr bytes := by
  intro j b hb
  have hj : j < bytes.length := (List.getElem?_eq_some_iff.mp hb).1
  have hdiv : (ptr + j) / pgsize = n + 1 := by
    refine (Nat.div_eq_iff (by decide)).mpr ⟨by omega, ?_⟩
    unfold pgsize at *
    omega
  have hmod : (ptr + j) % pgsize = ptr - (n + 1) * pgsize + j := by
    have := Nat.div_add_mod (ptr + j) pgsize
    rw [hdiv, Nat.mul_comm] at this
    omega
  rw [userByte, hdiv, hpage, Option.map_some, hmod, h j b hb]

theorem Built.argStack (h : Built K s t n M img argv) :
    ArgStack s.mem t ((n + 2) * pgsize) (stackTop ((n + 2) * pgsize) argv) argv
      (pointers ((n + 2) * pgsize) argv) := by
  obtain ⟨pa, hpage, hwords, hstrings⟩ := h.stack
  have hfits := h.fits
  have hroom16 := room_mod argv
  have hpad16 := pad_mod ((argv.length + 1) * 8)
  have hpad := le_pad ((argv.length + 1) * 8)
  have hsz16 : (n + 2) * pgsize % 16 = 0 := by
    unfold pgsize
    omega
  have hwidth : (n + 2) * pgsize = (n + 1) * pgsize + pgsize := by
    unfold pgsize
    omega
  have hlow : (n + 2) * pgsize - pgsize = (n + 1) * pgsize := by omega
  unfold Fits at hfits
  have hbounds : ∀ x ∈ regions (stackTop ((n + 2) * pgsize) argv) argv
      (pointers ((n + 2) * pgsize) argv),
      (n + 1) * pgsize ≤ x.addr ∧ x.addr + x.len ≤ (n + 2) * pgsize := by
    intro x hx
    obtain rfl | hx := List.mem_cons.mp hx
    · dsimp only
      unfold stackTop
      omega
    · have := mem_zipWith_pointers (by omega) hx
      omega
  refine ⟨?_, length_pointers _ _, ?_, ?_, ?_, ?_, ?_⟩
  · unfold stackTop
    omega
  · refine hwords.reads hpage (hbounds _ List.mem_cons_self).1 ?_
    rw [length_flatMap_wordBytes, List.length_append, length_pointers, List.length_singleton]
    exact (hbounds _ List.mem_cons_self).2
  · intro i str ptr hi hptr
    obtain ⟨hge, hle⟩ := pointers_bounds (by omega) hi hptr
    refine (hstrings i str ptr hi hptr).reads hpage (by omega) ?_
    rw [List.length_append, List.length_singleton]
    exact hle
  · refine List.pairwise_cons.mpr ⟨fun x hx => Or.inl ?_, pairwise_zipWith_pointers (by omega)⟩
    have := mem_zipWith_pointers (by omega) hx
    dsimp only
    unfold stackTop
    omega
  · intro x hx
    rw [hlow]
    exact hbounds x hx
  · obtain ⟨pte, hpte, hu⟩ := h.guard
    have hdiv : ((n + 2) * pgsize - 2 * pgsize) / pgsize = n := by
      unfold pgsize
      omega
    have hle := h.space.le
    have hmax : userMax < npages := by decide
    rw [hdiv, userPage, if_pos (by omega), h.space.table.map n (by omega), hpte, Option.bind_some,
      if_pos (Or.inl hu)]

/-- `sp` after the first `k` strings. -/
def spAfter (sz : Nat) (argv : List (List UInt8)) (k : Nat) : Nat :=
  (argv.take k).foldl (fun sp str => push sp (str.length + 1)) sz

/-- No subtraction from an `sp` that has passed the check against `stackbase` goes below zero. -/
def NoUnderflow (sz : Nat) (argv : List (List UInt8)) : Prop :=
  (∀ (k : Nat) str, argv[k]? = some str → sz - pgsize ≤ spAfter sz argv k →
    str.length + 1 ≤ spAfter sz argv k) ∧
  (sz - pgsize ≤ spAfter sz argv argv.length →
    (argv.length + 1) * 8 ≤ spAfter sz argv argv.length)

/-- The byte at an address, whether the user can access it or not. -/
def physByte (mem : Nat → Page) (t a : Nat) : Option UInt8 :=
  (lookup mem t (a / pgsize)).map fun pte => mem (pte2pa pte) (a % pgsize)

/-- What the argument phase does below the stack, and when it fails. -/
structure ArgPhase (s s' : Phys) (t sz : Nat) (argv : List (List UInt8)) (r : Option Nat) :
    Prop where
  noUnderflow : NoUnderflow sz argv
  fails_iff : r = none ↔ ¬ Fits argv
  below : ∀ a < sz - pgsize, physByte s'.mem t a = physByte s.mem t a

theorem Space.physByte {a : Nat} (h : Space K s t n M) (ha : a < n * pgsize) :
    physByte s.mem t a = some (byteOf s M a) := by
  have hv : a / pgsize < n := Nat.div_lt_of_lt_mul (by rw [Nat.mul_comm]; exact ha)
  obtain ⟨pte, hpte, -⟩ := h.leaf _ hv
  have hlt : a / pgsize < npages := Nat.lt_of_lt_of_le hv (le_trans h.le (by decide))
  rw [Exec.physByte, h.table.map _ hlt, hpte, Option.map_some, byteOf, pageOf_of_some hpte]

theorem noUnderflow {sz : Nat} (hsz : 2 * pgsize ≤ sz) (hargs : argv.length ≤ maxarg)
    (hstr : ∀ str ∈ argv, str.length < pgsize) : NoUnderflow sz argv := by
  refine ⟨fun k str hk hsp => ?_, fun hsp => ?_⟩
  · have := hstr str (List.mem_of_getElem? hk)
    omega
  · unfold maxarg at hargs
    unfold pgsize at *
    omega

/-- The argument phase, once the two pages have been allocated. -/
theorem Loaded.argPhase {sz sz1 : Nat} {s₁ : Phys} (h : Loaded K s t sz M img)
    (hargs : argv.length ≤ maxarg) (hstr : ∀ str ∈ argv, str.length < pgsize)
    (halloc : uvmalloc K t (pgroundup sz) (u64 (pgroundup sz + 2 * pgsize)) s = .ok sz1 s₁)
    (hne : sz1 ≠ 0) :
    ∃ r s', stackArgs t sz1 argv s₁ = .ok r s' ∧ ArgPhase s₁ s' t sz1 argv r := by
  have hpages : Wp (uvmalloc K t (pgroundup sz) (u64 (pgroundup sz + 2 * pgsize))) s
      (fun sz1 s₁ => sz1 ≠ 0 → sz1 = (npg sz + 2) * pgsize ∧ ∃ M₁,
        Space K s₁ t (npg sz + 2) M₁ ∧ Grown s s₁ (npg sz) (npg sz + 2) M M₁) fun _ _ => True :=
    h.wp_stackPages (fun s₁ M₁ h₁ hgrown _ _ => ⟨rfl, M₁, h₁, hgrown⟩)
      fun _ _ _ _ _ hzero => absurd rfl hzero
  obtain ⟨rfl, M₁, h₁, hgrown⟩ := hpages.of_ok halloc hne
  obtain ⟨-, -, hbytes⟩ := h.grown h₁ hgrown
  have hsub : (npg sz + 2) * pgsize - pgsize = (npg sz + 1) * pgsize := by
    unfold pgsize
    omega
  have hlow : (npg sz + 1) * pgsize ≤ (npg sz + 2) * pgsize := Nat.mul_le_mul_right _ (by omega)
  have hno : NoUnderflow ((npg sz + 2) * pgsize) argv :=
    noUnderflow (by unfold pgsize; omega) hargs hstr
  have hsame : ∀ s' M', Space K s' t (npg sz + 2) M' →
      (∀ a < (npg sz + 1) * pgsize, byteOf s' M' a = img a) →
      ∀ a < (npg sz + 2) * pgsize - pgsize, physByte s'.mem t a = physByte s₁.mem t a := by
    intro s' M' h' hbelow a ha
    rw [hsub] at ha
    rw [Space.physByte h' (by omega), Space.physByte h₁ (by omega), hbelow a ha,
      hbytes a (by omega)]
  refine returns_iff.mp (h.wp_stackArgs h₁ hgrown hargs hstr ?_ ?_)
  · intro s' M' hbuilt _
    refine ⟨hno, iff_of_false (Option.some_ne_none _) (not_not.mpr hbuilt.fits), ?_⟩
    exact hsame s' M' hbuilt.space hbuilt.below
  · intro s' M' hfits h' _ hbelow _
    exact ⟨hno, iff_of_true rfl hfits, hsame s' M' h' hbelow⟩

/-- `exec` gets to its argument phase: it accepts the header and finds memory for the page table
`t`, for the segments and for the two pages of the stack, whose end is `sz1`. -/
def Reached (K : Image) (p : Proc) (file : List UInt8) (s : Phys) (t sz1 : Nat) (s₃ : Phys) :
    Prop :=
  let elf := elfhdr (readBytes file 0 elfhdrSize)
  (readBytes file 0 elfhdrSize).length = elfhdrSize ∧ elf.magic = elfMagic ∧
    ∃ s₁ sz s₂, procPagetable K p.trapframe s = .ok (some t) s₁ ∧
      loadHeaders K file t elf.phnum (uint elf.phoff) 0 s₁ = .ok (true, sz) s₂ ∧
      uvmalloc K t (pgroundup sz) (u64 (pgroundup sz + 2 * pgsize)) s₂ = .ok sz1 s₃ ∧ sz1 ≠ 0

/-- The argument phase of an `exec` that gets there, and what `exec` makes of its result. -/
theorem Reached.argPhase {p : Proc} {file : List UInt8} {sz1 : Nat} {s₃ s' : Phys}
    {r : Option Started} {A : Set Nat} (hr : Reached K p file s t sz1 s₃) (ho : Owns K.Ram s A)
    (htf : p.trapframe < 2 ^ 64) (hfile : file.length < 2 ^ 31) (hargs : argv.length ≤ maxarg)
    (hstr : ∀ str ∈ argv, str.length < pgsize) (hrun : exec K p file argv s = .ok r s') :
    (r = none ↔ ¬ Fits argv) ∧
      ∃ r' s₄, stackArgs t sz1 argv s₃ = .ok r' s₄ ∧ ArgPhase s₃ s₄ t sz1 argv r' := by
  obtain ⟨hlen, hmagic, s₁, sz, s₂, hpt, hload, halloc, hne⟩ := hr
  -- the program that has been loaded when the two pages are asked for
  have hspace : Wp (procPagetable K p.trapframe) s
      (fun r s₁ => ∀ t, r = some t → ∃ M₁, Space K s₁ t 0 M₁ ∧ Tops M₁) fun _ _ => True := by
    refine wp_procPagetable ho htf (fun _ _ t ht => by cases ht) ?_
    intro t s₁ M₁ h₁ htops _ _ _ t' ht
    cases ht
    exact ⟨M₁, h₁, htops⟩
  obtain ⟨M₁, h₁, htops₁⟩ := hspace.of_ok hpt t rfl
  have hloaded : Wp (loadHeaders K file t (elfhdr (readBytes file 0 elfhdrSize)).phnum
      (uint (elfhdr (readBytes file 0 elfhdrSize)).phoff) 0) s₁
      (fun r s₂ => r.1 = true → ∃ M₂ img, Loaded K s₂ t r.2 M₂ img) fun _ _ => True :=
    (Loaded.empty h₁ htops₁).wp_loadHeaders hfile
      (fun _ M₂ _ _ h₂ _ _ _ => ⟨M₂, _, h₂⟩) fun _ _ _ _ _ _ hfalse => by cases hfalse
  obtain ⟨M₂, img, h₂⟩ := hloaded.of_ok hload rfl
  obtain ⟨r', s₄, hstack, hphase⟩ := h₂.argPhase hargs hstr halloc hne
  refine ⟨?_, r', s₄, hstack, hphase⟩
  rw [← hphase.fails_iff]
  have hbuild : buildStack K t sz argv s₂ = .ok (sz1, r') s₄ := by
    rw [buildStack, bind_of_ok halloc, if_neg hne, bind_of_ok hstack]
    rfl
  have hprog : loadProgram K p.trapframe file argv s = (match r' with
      | none => bad K t sz1
      | some sp => pure (some ⟨t, sz1, sp, sp, (elfhdr (readBytes file 0 elfhdrSize)).entry,
        argv.length⟩)) s₄ := by
    unfold loadProgram
    rw [if_neg (not_not.mpr hlen), if_neg (not_not.mpr hmagic), bind_of_ok hpt]
    dsimp only
    rw [bind_of_ok hload, if_pos rfl, bind_of_ok hbuild]
  rw [exec, bind_apply, hprog] at hrun
  cases r' with
  | none =>
    dsimp only at hrun
    rw [bad, bind_apply] at hrun
    cases hfree : procFreepagetable K t sz1 s₄ <;> rw [hfree] at hrun <;> cases hrun
    exact iff_of_true rfl rfl
  | some sp =>
    change (procFreepagetable K p.pagetable p.sz >>= _) s₄ = _ at hrun
    rw [bind_apply] at hrun
    cases hfree : procFreepagetable K p.pagetable p.sz s₄ <;> rw [hfree] at hrun <;> cases hrun
    exact iff_of_false (Option.some_ne_none _) (Option.some_ne_none sp)

/-- `exec` builds a correct stack for every vector that `sys_exec` passes; and an `exec` that gets
to its argument phase fails exactly if the arguments do not fit in the page of the stack. -/
theorem exec_argument_stack {p : Proc} {file : List UInt8}
    (hargs : argv.length ≤ maxarg - 1) (hstr : ∀ str ∈ argv, str.length < pgsize)
    (h : Space K s p.pagetable (npg p.sz) M) (htops : Tops M) (htf : p.trapframe < 2 ^ 64)
    (hfile : file.length ≤ maxfile * bsize) :
    ∃ r s', exec K p file argv s = .ok r s' ∧
      (∀ x, r = some x → x.a1 = x.sp ∧ x.argc = argv.length ∧
        ∃ ptrs, ArgStack s'.mem x.pagetable x.sz x.sp argv ptrs) ∧
      ∀ t sz1 s₃, Reached K p file s t sz1 s₃ → (r = none ↔ ¬ Fits argv) ∧
        ∃ r' s₄, stackArgs t sz1 argv s₃ = .ok r' s₄ ∧ ArgPhase s₃ s₄ t sz1 argv r' := by
  have hlt : file.length < 2 ^ 31 := lt_of_le_of_lt hfile (by decide)
  have hargs' : argv.length ≤ maxarg := le_trans hargs (Nat.sub_le _ _)
  have hstack : Returns (exec K p file argv) s fun r s' => ∀ x, r = some x → x.a1 = x.sp ∧
      x.argc = argv.length ∧ ∃ ptrs, ArgStack s'.mem x.pagetable x.sz x.sp argv ptrs := by
    refine wp_exec h htops htf hlt hargs' hstr (fun s' x hx => by cases hx) ?_
    intro s' M' hs r hready x hx
    cases hx
    have hstack := hready.built.argStack
    rw [← hready.sz, ← hready.sp] at hstack
    exact ⟨hready.a1, hready.argc, _, hstack⟩
  obtain ⟨r, s', hrun, hx⟩ := returns_iff.mp hstack
  exact ⟨r, s', hrun, hx, fun t sz1 s₃ hr => hr.argPhase h.owns htf hlt hargs' hstr hrun⟩

end Args

/-! ## The image -/

/-- The ELF header of a file. -/
def fileElf (file : List UInt8) : Elfhdr := elfhdr (readBytes file 0 elfhdrSize)

/-- The program header number `i`, if the file has one. -/
def fileHeader (file : List UInt8) (i : Nat) : Option Proghdr :=
  let off := (fileElf file).phoff + i * proghdrSize
  if off + proghdrSize ≤ file.length then
    some (proghdr ((file.drop off).take proghdrSize))
  else none

/-- The header of a segment to be loaded. -/
def HasSegment (file : List UInt8) (i : Nat) (ph : Proghdr) : Prop :=
  i < (fileElf file).phnum ∧ fileHeader file i = some ph ∧ ph.type = elfProgLoad

/-- The virtual pages of a segment. -/
def Proghdr.pages (ph : Proghdr) : Set Nat :=
  {v | ph.vaddr / pgsize ≤ v ∧ v < npg (ph.vaddr + ph.memsz)}

/-- The addresses of its part in the file. -/
def Proghdr.filePart (ph : Proghdr) : Set Nat := {a | ph.vaddr ≤ a ∧ a < ph.vaddr + ph.filesz}

/-- The memory is the one that the file describes. -/
structure Describes (file : List UInt8) (mem : Nat → Page) (t : Nat) : Prop where
  present : ∀ i < (fileElf file).phnum, ∃ ph, fileHeader file i = some ph
  inside : ∀ i ph, HasSegment file i ph → ph.filesz = 0 ∨ ph.off + ph.filesz ≤ file.length
  loaded : ∀ i ph, HasSegment file i ph →
    (∀ j ph', i < j → HasSegment file j ph' → ∀ v ∈ ph.pages, v ∉ ph'.pages) →
    ∀ k < ph.filesz, userByte mem t (ph.vaddr + k) = some (file.getD (ph.off + k) 0)
  zero : ∀ a, (∃ i ph, HasSegment file i ph ∧ a < npg (ph.vaddr + ph.memsz) * pgsize) →
    (∀ i ph, HasSegment file i ph → a ∉ ph.filePart) → userByte mem t a = some 0

section Image

variable {K : Image} {s : Phys} {t n a : Nat} {M : Nat → Option Nat} {img : Nat → UInt8}
variable {file : List UInt8} {argv : List (List UInt8)} {hs : List Proghdr}

/-- The headers that the loop reads are those of the file. -/
theorem headersAt_eq_some {k off : Nat} (hfile : file.length < 2 ^ 31)
    (h : headersAt file k off = some hs) : hs.length = k ∧ ∀ i < k,
      off + i * proghdrSize + proghdrSize ≤ file.length ∧
      hs[i]? = some (proghdr ((file.drop (off + i * proghdrSize)).take proghdrSize)) := by
  induction k generalizing off hs with
  | zero =>
    cases h
    exact ⟨rfl, fun i hi => absurd hi (Nat.not_lt_zero i)⟩
  | succ k ih =>
    simp only [headersAt] at h
    split at h
    next => cases h
    next hlen =>
      rw [not_not] at hlen
      have hin : off + proghdrSize ≤ file.length := by
        by_contra hout
        have hshort : (readBytes file off proghdrSize).length < proghdrSize :=
          length_readBytes_lt (by decide) (by omega)
        omega
      have hover : off + proghdrSize < 2 ^ 32 := by omega
      rw [uint_of_lt hover] at h
      obtain ⟨hs', hhs', rfl⟩ := Option.map_eq_some_iff.mp h
      obtain ⟨hlen', hall⟩ := ih hhs'
      refine ⟨by rw [List.length_cons, hlen'], ?_⟩
      rintro (_ | i) hi
      · rw [Nat.zero_mul, Nat.add_zero, ← readBytes_of_lt hover]
        exact ⟨hin, rfl⟩
      · have hsum : off + (i + 1) * proghdrSize = off + proghdrSize + i * proghdrSize := by
          rw [Nat.succ_mul]
          omega
        rw [hsum, List.getElem?_cons_succ]
        exact hall i (by omega)

theorem place_of_notMem {ph : Proghdr} (h : ph.type = elfProgLoad → a ∉ ph.filePart) :
    ph.place file img a = img a := by
  unfold Proghdr.place
  split
  next htype => exact if_neg (h htype)
  next => rfl

theorem foldl_place_of_notMem (h : ∀ ph ∈ hs, ph.type = elfProgLoad → a ∉ ph.filePart) :
    hs.foldl (Proghdr.place file) img a = img a := by
  induction hs generalizing img with
  | nil => rfl
  | cons ph hs ih =>
    obtain ⟨hfirst, hrest⟩ := List.forall_mem_cons.mp h
    rw [List.foldl_cons, ih hrest, place_of_notMem hfirst]

/-- The last header that covers an address decides. -/
theorem foldl_place_of_mem {i : Nat} {ph : Proghdr} (hi : hs[i]? = some ph)
    (htype : ph.type = elfProgLoad) (ha : a ∈ ph.filePart)
    (hlater : ∀ j ph', i < j → hs[j]? = some ph' → ph'.type = elfProgLoad → a ∉ ph'.filePart) :
    hs.foldl (Proghdr.place file) img a = file.getD (uint ph.off + (a - ph.vaddr)) 0 := by
  induction hs generalizing img i with
  | nil => cases hi
  | cons ph' hs ih =>
    rw [List.foldl_cons]
    cases i with
    | zero =>
      cases hi
      rw [foldl_place_of_notMem]
      · rw [Proghdr.place, if_pos htype]
        exact if_pos ha
      · intro ph'' hmem
        obtain ⟨j, hj⟩ := List.mem_iff_getElem?.mp hmem
        exact hlater (j + 1) ph'' (Nat.succ_pos j) hj
    | succ i =>
      exact ih hi fun j ph'' hij hj => hlater (j + 1) ph'' (Nat.succ_lt_succ hij) hj

/-- The size covers every segment. -/
theorem le_foldl_grow {sz : Nat} : sz ≤ hs.foldl Proghdr.grow sz ∧
    ∀ ph ∈ hs, ph.type = elfProgLoad → ph.vaddr + ph.memsz ≤ hs.foldl Proghdr.grow sz := by
  induction hs generalizing sz with
  | nil => exact ⟨Nat.le_refl sz, List.forall_mem_nil _⟩
  | cons ph hs ih =>
    obtain ⟨hle, hall⟩ := @ih (ph.grow sz)
    rw [List.foldl_cons]
    have hgrow : sz ≤ ph.grow sz := by
      unfold Proghdr.grow
      split
      · exact le_max_left ..
      · exact Nat.le_refl sz
    refine ⟨le_trans hgrow hle, List.forall_mem_cons.mpr ⟨fun htype => le_trans ?_ hle, hall⟩⟩
    rw [Proghdr.grow, if_pos htype]
    exact le_max_right ..

/-- The user reads the image. -/
theorem Built.userByte (h : Built K s t n M img argv) (ha : a < n * pgsize) :
    userByte s.mem t a = some (img a) := by
  have hv : a / pgsize < n := Nat.div_lt_of_lt_mul (by rw [Nat.mul_comm]; exact ha)
  obtain ⟨pte, hpte, -⟩ := h.space.leaf (a / pgsize) (by omega)
  have hu : pte &&& pteU ≠ 0 := by
    rw [and_pteU, h.usable _ pte hv hpte]
    decide
  have hbelow := h.below a (lt_of_lt_of_le ha (Nat.mul_le_mul_right _ (Nat.le_succ n)))
  rw [byteOf, pageOf_of_some hpte] at hbelow
  rw [Vm.userByte, h.space.userPage (by omega) hpte hu, Option.map_some, hbelow]

/-- A file whose offsets fit is loaded as it says. -/
theorem Ready.describes {r : Started} (h : Ready K s file argv hs M r)
    (hfile : file.length < 2 ^ 31) (hphoff : (fileElf file).phoff < 2 ^ 32)
    (hoff : ∀ i ph, HasSegment file i ph → ph.off < 2 ^ 32 ∨ ph.filesz = 0) :
    Describes file s.mem r.pagetable := by
  have hheaders := h.headers
  rw [show elfhdr (readBytes file 0 elfhdrSize) = fileElf file from rfl, uint_of_lt hphoff]
    at hheaders
  obtain ⟨hlen, hall⟩ := headersAt_eq_some hfile hheaders
  have hfileHeader : ∀ i < (fileElf file).phnum, fileHeader file i = hs[i]? := by
    intro i hi
    obtain ⟨hin, hget⟩ := hall i hi
    rw [hget, fileHeader, if_pos hin]
  have hseg : ∀ i ph, HasSegment file i ph ↔ hs[i]? = some ph ∧ ph.type = elfProgLoad := by
    intro i ph
    constructor
    · rintro ⟨hi, hget, htype⟩
      exact ⟨(hfileHeader i hi).symm.trans hget, htype⟩
    · rintro ⟨hget, htype⟩
      have hi : i < (fileElf file).phnum := hlen ▸ (List.getElem?_eq_some_iff.mp hget).1
      exact ⟨hi, (hfileHeader i hi).trans hget, htype⟩
  have hacc : ∀ i ph, HasSegment file i ph → ph.Accepted file := by
    intro i ph hi
    obtain ⟨hget, htype⟩ := (hseg i ph).mp hi
    exact h.accepted ph (List.mem_of_getElem? hget) htype
  have hnarrow : ∀ i ph, HasSegment file i ph → ph.filesz ≠ 0 → uint ph.off = ph.off :=
    fun i ph hi hne => uint_of_lt ((hoff i ph hi).resolve_right hne)
  have hbelow : ∀ i ph a, HasSegment file i ph → a < npg (ph.vaddr + ph.memsz) * pgsize →
      userByte s.mem r.pagetable a = some (hs.foldl (Proghdr.place file) (fun _ => 0) a) := by
    intro i ph a hi ha
    obtain ⟨hget, htype⟩ := (hseg i ph).mp hi
    refine h.built.userByte (lt_of_lt_of_le ha (Nat.mul_le_mul_right _ (npg_mono ?_)))
    exact le_foldl_grow.2 ph (List.mem_of_getElem? hget) htype
  refine ⟨?_, ?_, ?_, ?_⟩
  · intro i hi
    exact ⟨_, (hfileHeader i hi).trans (hall i hi).2⟩
  · intro i ph hi
    by_cases hzero : ph.filesz = 0
    · exact Or.inl hzero
    · have hin := (hacc i ph hi).inside
      rw [hnarrow i ph hi hzero] at hin
      exact hin
  · intro i ph hi hapart k hk
    obtain ⟨hget, htype⟩ := (hseg i ph).mp hi
    have hle := (hacc i ph hi).filesz_le
    have hpage : (ph.vaddr + k) / pgsize ∈ ph.pages := by
      refine ⟨Nat.div_le_div_right (Nat.le_add_right _ _), ?_⟩
      unfold npg pgsize
      omega
    rw [hbelow i ph _ hi ((Nat.div_lt_iff_lt_mul (by decide)).mp hpage.2),
      foldl_place_of_mem hget htype ⟨Nat.le_add_right _ _, by omega⟩ ?_,
      hnarrow i ph hi (by omega), Nat.add_sub_cancel_left]
    rintro j ph' hij hj htype' ⟨hge, hlt⟩
    have hj' := (hseg j ph').mpr ⟨hj, htype'⟩
    have hle' := (hacc j ph' hj').filesz_le
    refine hapart j ph' hij hj' _ hpage ⟨Nat.div_le_div_right hge, ?_⟩
    unfold npg pgsize
    omega
  · rintro a ⟨i, ph, hi, ha⟩ hnot
    rw [hbelow i ph a hi ha, foldl_place_of_notMem]
    intro ph' hmem htype'
    obtain ⟨j, hj⟩ := List.mem_iff_getElem?.mp hmem
    exact hnot j ph' ((hseg j ph').mpr ⟨hj, htype'⟩)

/-- The image of an accepted file is the one that the file describes, exactly when its offsets
fit in 32 bits. -/
theorem exec_loads_image_iff {p : Proc} (h : Space K s p.pagetable (npg p.sz) M) (htops : Tops M)
    (htf : p.trapframe < 2 ^ 64) (hfile : file.length ≤ maxfile * bsize)
    (hargs : argv.length ≤ maxarg - 1) (hstr : ∀ str ∈ argv, str.length < pgsize) :
    ∃ r s', exec K p file argv s = .ok r s' ∧ ∀ x, r = some x →
      (Describes file s'.mem x.pagetable ↔
        (fileElf file).phnum = 0 ∨ ((fileElf file).phoff < 2 ^ 32 ∧
          ∀ i ph, HasSegment file i ph → ph.off < 2 ^ 32 ∨ ph.filesz = 0)) := by
  have hlt : file.length < 2 ^ 31 := lt_of_le_of_lt hfile (by decide)
  refine returns_iff.mp (wp_exec h htops htf hlt (le_trans hargs (Nat.sub_le _ _)) hstr ?_ ?_)
  · intro s' x hx
    cases hx
  · intro s' M' hs r hready x hx
    cases hx
    constructor
    · intro hdesc
      by_cases hzero : (fileElf file).phnum = 0
      · exact Or.inl hzero
      · refine Or.inr ⟨?_, fun i ph hi => ?_⟩
        · obtain ⟨ph, hph⟩ := hdesc.present 0 (Nat.pos_of_ne_zero hzero)
          unfold fileHeader at hph
          dsimp only at hph
          split at hph
          next hin => omega
          next => cases hph
        · have := hdesc.inside i ph hi
          omega
    · rintro (hzero | ⟨hphoff, hoff⟩)
      · have hnone : ∀ i ph, ¬ HasSegment file i ph := by
          rintro i ph ⟨hi, -⟩
          omega
        refine ⟨fun i hi => by omega, fun i ph hi => absurd hi (hnone i ph),
          fun i ph hi => absurd hi (hnone i ph), ?_⟩
        rintro a ⟨i, ph, hi, -⟩
        exact absurd hi (hnone i ph)
      · exact hready.describes hlt hphoff hoff

end Image

/-! ## A small machine -/

/-- A process without memory, whose trapframe is another page. -/
def emptyProc : Proc := ⟨0x80008000, 0, 0x80100000⟩

/-- Its memory, after `proc_pagetable`. -/
def emptyMemory : Phys :=
  (stateOf (procPagetable tinyImage emptyProc.trapframe) tinyPool).getD tinyPool

theorem emptyMemory_space :
    ∃ M, Space tinyImage emptyMemory emptyProc.pagetable (npg emptyProc.sz) M ∧
    Tops M := by
  have hspec : Wp (procPagetable tinyImage emptyProc.trapframe) tinyPool
      (fun r s => ∀ t, r = some t → ∃ M, Space tinyImage s t 0 M ∧ Tops M) fun _ _ => True := by
    refine wp_procPagetable owns_tinyPool (by decide) (fun _ _ t ht => by cases ht) ?_
    intro t s M h htops _ _ _ t' ht
    cases ht
    exact ⟨M, h, htops⟩
  have hres : outcome (procPagetable tinyImage emptyProc.trapframe) tinyPool =
      .ok (some emptyProc.pagetable) := by
    decide +kernel
  obtain ⟨s, hrun⟩ := exists_ok hres
  have hmem : emptyMemory = s := by
    rw [emptyMemory, stateOf, hrun]
    rfl
  rw [hmem]
  exact hspec.of_ok hrun _ rfl

/-- A file of 121 bytes with one segment of one byte, said to be at `off` in the file. -/
def tinyElf (off : Nat) : List UInt8 :=
  leBytes elfMagic 4 ++ List.replicate 20 0 ++ leBytes 0 8 ++ leBytes 64 8 ++
    List.replicate 16 0 ++ leBytes 1 2 ++ List.replicate 6 0 ++
  (leBytes elfProgLoad 4 ++ leBytes 0 4 ++ leBytes off 8 ++ leBytes 0 8 ++ leBytes 0 8 ++
    leBytes 1 8 ++ leBytes 1 8 ++ leBytes 0 8) ++ [42]

/-- A failure comes from the loading. -/
theorem loadProgram_of_exec {K : Image} {p : Proc} {file : List UInt8} {argv : List (List UInt8)}
    {s s' : Phys} (h : exec K p file argv s = .ok none s') :
    ∃ s₁, loadProgram K p.trapframe file argv s = .ok none s₁ := by
  rw [exec, bind_apply] at h
  cases hload : loadProgram K p.trapframe file argv s with
  | error e s₁ =>
    rw [hload] at h
    cases h
  | ok r s₁ =>
    cases r with
    | none => exact ⟨s₁, rfl⟩
    | some x =>
      rw [hload] at h
      dsimp only at h
      rw [bind_apply] at h
      cases hfree : procFreepagetable K p.pagetable p.sz s₁ <;> rw [hfree] at h <;> cases h

/-- A program that can be loaded is started. -/
theorem exec_starts (file : List UInt8) (argv : List (List UInt8)) (hlt : file.length < 2 ^ 31)
    (hargs : argv.length ≤ maxarg) (hstr : ∀ str ∈ argv, str.length < pgsize)
    (hsome : (match loadProgram tinyImage emptyProc.trapframe file argv emptyMemory with
      | .ok r _ => r.isSome
      | .error _ _ => false) = true) :
    ∃ x s', exec tinyImage emptyProc file argv emptyMemory = .ok (some x) s' := by
  obtain ⟨M, h, htops⟩ := emptyMemory_space
  have hret : Returns (exec tinyImage emptyProc file argv) emptyMemory fun _ _ => True :=
    wp_exec h htops (by decide) hlt hargs hstr (fun _ => trivial) fun _ _ _ _ _ => trivial
  obtain ⟨r, s', hrun, -⟩ := returns_iff.mp hret
  cases r with
  | none =>
    obtain ⟨s₁, hload⟩ := loadProgram_of_exec hrun
    rw [hload] at hsome
    cases hsome
  | some x => exact ⟨x, s', hrun⟩

/-- The program starts with two arguments. -/
theorem exec_argument_stack_two : ∃ x s',
    exec tinyImage emptyProc (tinyElf 120) [[65], [66, 67]] emptyMemory = .ok (some x) s' ∧
      x.a1 = x.sp ∧ x.argc = 2 ∧
        ∃ ptrs, ArgStack s'.mem x.pagetable x.sz x.sp [[65], [66, 67]] ptrs := by
  obtain ⟨M, h, htops⟩ := emptyMemory_space
  obtain ⟨x, s', hrun⟩ := exec_starts (tinyElf 120) [[65], [66, 67]]
    (by decide +kernel) (by decide) (by decide) (by decide +kernel)
  obtain ⟨r, s'', hrun', hstack, -⟩ := exec_argument_stack
    (show [[65], [66, 67]].length ≤ maxarg - 1 by decide) (by decide) h htops (by decide)
    (show (tinyElf 120).length ≤ maxfile * bsize by decide +kernel)
  cases hrun.symm.trans hrun'
  exact ⟨x, s', hrun, hstack x rfl⟩

/-- The program starts, with its segment at an offset that fits. -/
theorem exec_loads_image_iff_tiny : ∃ x s',
    exec tinyImage emptyProc (tinyElf 120) [[65]] emptyMemory = .ok (some x) s' ∧
      (Describes (tinyElf 120) s'.mem x.pagetable ↔
        (fileElf (tinyElf 120)).phnum = 0 ∨ ((fileElf (tinyElf 120)).phoff < 2 ^ 32 ∧
          ∀ i ph, HasSegment (tinyElf 120) i ph → ph.off < 2 ^ 32 ∨ ph.filesz = 0)) := by
  obtain ⟨M, h, htops⟩ := emptyMemory_space
  obtain ⟨x, s', hrun⟩ := exec_starts (tinyElf 120) [[65]]
    (by decide +kernel) (by decide) (by decide) (by decide +kernel)
  obtain ⟨r, s'', hrun', hiff⟩ := exec_loads_image_iff h htops (by decide)
    (show (tinyElf 120).length ≤ maxfile * bsize by decide +kernel)
    (show [[65]].length ≤ maxarg - 1 by decide) (by decide)
  cases hrun.symm.trans hrun'
  exact ⟨x, s', hrun, hiff x rfl⟩

/-- The segment is said to be at `2^32 + 120`, beyond the end of the file.  `loadseg` gets the
offset 120, and `exec` succeeds. -/
theorem exec_loads_beyond_file : ∃ x s',
    exec tinyImage emptyProc (tinyElf (2 ^ 32 + 120)) [[65]] emptyMemory = .ok (some x) s' ∧
      ¬ Describes (tinyElf (2 ^ 32 + 120)) s'.mem x.pagetable := by
  obtain ⟨x, s', hrun⟩ := exec_starts (tinyElf (2 ^ 32 + 120)) [[65]]
    (by decide +kernel) (by decide) (by decide) (by decide +kernel)
  generalize hfile : tinyElf (2 ^ 32 + 120) = file at hrun ⊢
  refine ⟨x, s', hrun, fun hdesc => ?_⟩
  generalize hph : proghdr ((file.drop 64).take 56) = ph
  have hseg : HasSegment file 0 ph := by
    refine ⟨?_, ?_, ?_⟩
    · rw [← hfile]
      decide +kernel
    · have hphoff : (fileElf file).phoff = 64 := by
        rw [← hfile]
        decide +kernel
      have hlen : file.length = 121 := by
        rw [← hfile]
        decide +kernel
      rw [fileHeader, hphoff, Nat.zero_mul, Nat.add_zero, if_pos (by rw [hlen]; decide)]
      exact congrArg some hph
    · rw [← hph, ← hfile]
      decide +kernel
  have hbad : ¬ (ph.filesz = 0 ∨ ph.off + ph.filesz ≤ file.length) := by
    rw [← hph, ← hfile]
    decide +kernel
  exact hbad (hdesc.inside 0 ph hseg)

end Exec
end Xv6
