import Mathlib.Tactic
import Xv6.Lib.Bytes
import Xv6.Lib.Loop
import Xv6.Lib.Pool
import Xv6.Param

/-!
# Physical memory

The page allocator of `kalloc.c`, and the macros of `riscv.h` for page table entries.
Physical memory is a pool of pages, each with its bytes; a page is named by its address.

Main results:

- Theorem {lit}`pte2pa_leaf`, {lit}`pteFlags_leaf`: an entry holds a page and its flags.
- Theorem {lit}`wp_kalloc`, {lit}`wp_kfree`: the allocator trades pages.
-/

namespace Xv6
namespace Vm

open Lib Function

/-! ## `riscv.h` and `memlayout.h` -/

def pgsize : Nat := 4096

/-- One beyond the highest possible virtual address. -/
def maxva : Nat := 2 ^ 38

def kernbase : Nat := 0x80000000

def phystop : Nat := kernbase + 128 * 1024 * 1024

def trampolineVa : Nat := maxva - pgsize

def trapframeVa : Nat := trampolineVa - pgsize

/-- The value of a C `uint64` after an operation whose mathematical result is `x`. -/
def u64 (x : Nat) : Nat := x % 2 ^ 64

/-- `PGROUNDUP`. -/
def pgroundup (sz : Nat) : Nat := u64 (sz + pgsize - 1) / pgsize * pgsize

/-- `PGROUNDDOWN`. -/
def pgrounddown (a : Nat) : Nat := a / pgsize * pgsize

def pteV : Nat := 1
def pteR : Nat := 2
def pteW : Nat := 4
def pteX : Nat := 8
def pteU : Nat := 16

/-- `PA2PTE`. -/
def pa2pte (pa : Nat) : Nat := (pa >>> 12) <<< 10

/-- `PTE2PA`. -/
def pte2pa (pte : Nat) : Nat := u64 ((pte >>> 10) <<< 12)

/-- `PTE_FLAGS`. -/
def pteFlags (pte : Nat) : Nat := pte &&& 0x3FF

/-- `PX`: the index of a virtual address at a level of the page table. -/
def px (level va : Nat) : Nat := (va >>> (12 + 9 * level)) &&& 0x1FF

/-! ## Pages -/

/-- The bytes of a page. -/
abbrev Page := Nat → UInt8

abbrev Phys := Pool Nat Page

/-- What the linker decides: where the kernel ends, and the page of `trampoline`. -/
structure Image where
  kend : Nat
  trampoline : Nat
  kernbase_le : kernbase ≤ trampoline
  aligned : trampoline % pgsize = 0
  trampoline_lt : trampoline < kend

/-- The pages that the allocator manages. -/
def Image.Ram (K : Image) (pa : Nat) : Prop :=
  pa % pgsize = 0 ∧ K.kend ≤ pa ∧ pa < phystop

/-- The `i`-th 64-bit word of a page. -/
def word (page : Page) (i : Nat) : Nat := getLE page (8 * i) 8

/-- Read the `i`-th entry of a page table page. -/
def load (pa i : Nat) : Prog Phys Nat := do
  pure (word ((← get).mem pa) i)

/-- Write the `i`-th entry of a page table page. -/
def store (pa i v : Nat) : Prog Phys Unit :=
  modify fun s => s.write pa (putLE (s.mem pa) (8 * i) 8 v)

/-- `memset` of a whole page. -/
def memset (pa : Nat) (c : UInt8) : Prog Phys Unit :=
  modify fun s => s.write pa fun _ => c

/-- `kalloc`. -/
def kalloc : Prog Phys (Option Nat) := do
  match (← get).free with
  | [] => pure none
  | r :: rest =>
    modify fun s => { mem := update s.mem r fun _ => 5, free := rest }
    pure (some r)

/-- `kfree`, which fills the page with ones and stores `r->next` in its first word. -/
def kfree (K : Image) (pa : Nat) : Prog Phys Unit := do
  if pa % pgsize ≠ 0 ∨ pa < K.kend ∨ phystop ≤ pa then throw "kfree"
  else modify fun s => {
    mem := update s.mem pa (putLE (fun _ => 1) 0 8 (s.free.headD 0))
    free := pa :: s.free }

/-! ## Entries -/

section Entries

variable {pa pte f : Nat}

/-- An entry as an address and flags. -/
theorem leaf_eq (hf : f < 1024) : pa2pte pa ||| f = pa / 4096 * 1024 + f := by
  unfold pa2pte
  rw [← Nat.shiftLeft_add_eq_or_of_lt (by simpa using hf), Nat.shiftLeft_eq,
    Nat.shiftRight_eq_div_pow]

/-- It is a word. -/
theorem leaf_lt (hpa : pa < 2 ^ 64) (hf : f < 1024) : pa2pte pa ||| f < 2 ^ 64 := by
  rw [leaf_eq hf]
  omega

/-- The page of an entry. -/
theorem pte2pa_leaf (hpa : pa < 2 ^ 64) (hf : f < 1024) :
    pte2pa (pa2pte pa ||| f) = pa / 4096 * 4096 := by
  rw [leaf_eq hf, pte2pa, u64, Nat.shiftLeft_eq, Nat.shiftRight_eq_div_pow]
  omega

/-- The flags are the low bits. -/
theorem pteFlags_eq (pte : Nat) : pteFlags pte = pte % 1024 :=
  Nat.and_two_pow_sub_one_eq_mod pte 10

/-- The flags of an entry. -/
theorem pteFlags_leaf (hf : f < 1024) : pteFlags (pa2pte pa ||| f) = f := by
  rw [leaf_eq hf, pteFlags_eq]
  omega

/-- The lowest bit. -/
theorem and_pteV (pte : Nat) : pte &&& pteV = pte % 2 :=
  Nat.and_one_is_mod pte

/-- The index as a digit. -/
theorem px_eq (level va : Nat) : px level va = va / 2 ^ (12 + 9 * level) % 512 := by
  rw [px, Nat.shiftRight_eq_div_pow]
  exact Nat.and_two_pow_sub_one_eq_mod _ 9

/-- The index of an entry. -/
theorem px_lt (level va : Nat) : px level va < 512 := by
  rw [px_eq]
  exact Nat.mod_lt _ (by norm_num)

end Entries

/-! ## Words -/

section Words

variable (page : Page) {i j v : Nat}

/-- A word of a page. -/
theorem word_lt (i : Nat) : word page i < 2 ^ 64 :=
  getLE_lt page (8 * i) 8

/-- The word that has been written. -/
theorem word_putLE_same (hv : v < 2 ^ 64) : word (putLE page (8 * i) 8 v) i = v := by
  rw [word, getLE_putLE_same]
  exact Nat.mod_eq_of_lt hv

/-- The other words. -/
theorem word_putLE_of_ne (hij : j ≠ i) : word (putLE page (8 * i) 8 v) j = word page j := by
  refine getLE_congr fun k _ _ => putLE_of_outside ?_
  omega

/-- A zeroed page. -/
theorem word_zero (i : Nat) : word (fun _ => 0) i = 0 := by
  simp [word, getLE]

end Words

/-! ## The allocator -/

section Allocator

variable {K : Image} {s : Phys} {A : Set Nat} {pa : Nat} {E : String → Phys → Prop}

/-- RAM ends here. -/
theorem Image.Ram.lt (h : K.Ram pa) : pa < 2 ^ 32 := by
  have := h.2.2
  unfold phystop kernbase at this
  omega

/-- Pages are aligned. -/
theorem Image.Ram.aligned (h : K.Ram pa) : pa / 4096 * 4096 = pa := by
  have := h.1
  unfold pgsize at this
  omega

/-- Page 0 is not in RAM. -/
theorem Image.Ram.pos (h : K.Ram pa) : 0 < pa := by
  have h₁ := h.2.1
  have h₂ := K.trampoline_lt
  omega

/-- Reading a word. -/
@[simp]
theorem wp_load {i : Nat} {Q : Nat → Phys → Prop} :
    Wp (load pa i) s Q E ↔ Q (word (s.mem pa) i) s := by
  unfold load
  rw [wp_bind_get, wp_pure]

/-- Writing a word. -/
@[simp]
theorem wp_store {i v : Nat} {Q : Unit → Phys → Prop} :
    Wp (store pa i v) s Q E ↔ Q () (s.write pa (putLE (s.mem pa) (8 * i) 8 v)) := by
  unfold store
  exact wp_modify

/-- Filling a page. -/
@[simp]
theorem wp_memset {c : UInt8} {Q : Unit → Phys → Prop} :
    Wp (memset pa c) s Q E ↔ Q () (s.write pa fun _ => c) := by
  unfold memset
  exact wp_modify

/-- `kalloc` takes a page from the free list, or there is none. -/
theorem wp_kalloc {Q : Option Nat → Phys → Prop} (h : Owns K.Ram s A)
    (hnone : s.free = [] → Q none s)
    (hsome : ∀ p s', p ∉ A → s.free = p :: s'.free → (∀ q, q ≠ p → s'.mem q = s.mem q) →
      Trade s s' A (insert p A) → Q (some p) s') : Wp kalloc s Q E := by
  unfold kalloc
  rw [wp_bind_get]
  cases hfree : s.free with
  | nil => exact wp_pure.mpr (hnone hfree)
  | cons p rest =>
    rw [wp_bind_modify, wp_pure]
    refine hsome p _ (fun hA => ?_) hfree (fun q hq => update_of_ne hq ..) (h.take hfree)
    exact h.sep p (by simp [hfree]) hA

/-- `kfree` gives a page back. -/
theorem wp_kfree {Q : Unit → Phys → Prop} (h : Owns K.Ram s (insert pa A)) (hpa : pa ∉ A)
    (hQ : ∀ s', s'.free = pa :: s.free → (∀ q, q ≠ pa → s'.mem q = s.mem q) →
      Trade s s' (insert pa A) A → Q () s') :
    Wp (kfree K pa) s Q E := by
  have hram := h.ok pa (Or.inl (Set.mem_insert ..))
  unfold kfree
  rw [if_neg (by have := hram.1; have := hram.2.1; have := hram.2.2; omega), wp_modify]
  exact hQ _ rfl (fun q hq => update_of_ne hq ..) (h.give hpa)

end Allocator

end Vm
end Xv6
