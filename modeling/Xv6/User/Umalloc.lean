import Xv6.Lib.Extent
import Xv6.Lib.Run
import Xv6.Lib.Walk
import Xv6.Param

/-!
# The user-level allocator

`malloc` and `free` of `umalloc.c`.  A `Header *` is counted in headers of 16 bytes, so that
`p + 1` is the next header; `malloc` returns and `free` takes addresses in bytes.  The
static header `base` lies below the heap.  The program that uses the allocator can
write anything into the blocks that it has, but not over their headers.

Main definitions:

- {lit}`Heap`: the headers, `freep`, and the memory that `sbrk` has given.
- {lit}`freeBlock`, {lit}`morecore`, {lit}`malloc`: the functions.
- {lit}`step`: one call, or one write of the program.
-/

namespace Xv6

/-- `sizeof(Header)`. -/
def headerSize : Nat := 16

namespace Umalloc

open Lib

/-- The static header `base`. -/
def base : Nat := 1

/-! ## States -/

/-- The two fields of every header, `freep` (zero is the null pointer) and the end of the
memory that `sbrk` has given.  The last two fields are histories: the blocks that the
program has, and the memory obtained from `sbrk`. -/
structure Heap where
  ptr : Nat → Nat
  size : Nat → Nat
  freep : Nat
  brk : Nat
  live : List Extent
  got : List Extent

/-- The start of a program, with any contents of the memory and a heap that starts
somewhere above `base`. -/
def boot (ptr size : Nat → Nat) (gap : Nat) : Heap where
  ptr := ptr
  size := size
  freep := 0
  brk := base + 1 + gap
  live := []
  got := []

namespace Heap

def setPtr (s : Heap) (p q : Nat) : Heap := { s with ptr := Function.update s.ptr p q }

def setSize (s : Heap) (p n : Nat) : Heap := { s with size := Function.update s.size p n }

/-- The number of units that `sbrk` has given. -/
def units (s : Heap) : Nat := (s.got.map Extent.len).sum

end Heap

/-! ## Freeing -/

/-- The loop of `free` stops at `p`: by its condition, or at the wrap by `break`. -/
def stops (s : Heap) (bp p : Nat) : Bool :=
  (p < bp ∧ bp < s.ptr p) ∨ (s.ptr p ≤ p ∧ (p < bp ∨ bp < s.ptr p))

/-- The first `if` of `free`: join `bp` to the block above. -/
def joinUpper (s : Heap) (bp p : Nat) : Heap :=
  if bp + s.size bp = s.ptr p then
    (s.setSize bp (uint (s.size bp + s.size (s.ptr p)))).setPtr bp (s.ptr (s.ptr p))
  else s.setPtr bp (s.ptr p)

/-- The second `if` of `free`: join it to the block below. -/
def joinLower (s : Heap) (bp p : Nat) : Heap :=
  if p + s.size p = bp then (s.setSize p (uint (s.size p + s.size bp))).setPtr p (s.ptr bp)
  else s.setPtr p bp

/-- `free` of the block with header `bp`. -/
def freeBlock (fuel : Nat) (s : Heap) (bp : Nat) : Option Heap :=
  (follow (stops s bp) s.ptr fuel s.freep).map fun p =>
    { joinLower (joinUpper s bp p) bp p with freep := p }

/-- `free`. -/
def free (fuel : Nat) (s : Heap) (ap : Nat) : Option Heap :=
  let bp := ap / headerSize - 1
  (freeBlock fuel s bp).map fun s => { s with live := s.live.eraseP fun x => x.addr = bp }

/-! ## Allocating -/

/-- The units that `morecore` asks for. -/
def coreUnits (nu : Nat) : Nat := if nu < 4096 then 4096 else nu

/-- `sbrk`, which fails or gives memory above all that it has given before. -/
def sbrk (s : Heap) (nu : Nat) : Option Nat → Option (Nat × Heap)
  | none => none
  | some gap => some (s.brk + gap,
      { s with brk := s.brk + gap + nu, got := s.got ++ [⟨s.brk + gap, nu⟩] })

/-- `morecore`.  The outer option is for the loop of `free`, the inner one for `sbrk`. -/
def morecore (fuel : Nat) (s : Heap) (nu : Nat) (res : Option Nat) : Option (Option Heap) :=
  match sbrk s (coreUnits nu) res with
  | none => some none
  | some (hp, s) => (freeBlock fuel (s.setSize hp (coreUnits nu)) hp).map some

/-- The end of `malloc`, with `p = prevp->s.ptr` large enough. -/
def take (s : Heap) (prevp nunits : Nat) : Nat × Heap :=
  let p := s.ptr prevp
  if s.size p = nunits then
    (headerSize * (p + 1),
      { s.setPtr prevp (s.ptr p) with freep := prevp, live := ⟨p, nunits⟩ :: s.live })
  else
    let s := s.setSize p (s.size p - nunits)
    let q := p + s.size p
    (headerSize * (q + 1),
      { s.setSize q nunits with freep := prevp, live := ⟨q, nunits⟩ :: s.live })

/-- The loop of `malloc` at `prevp`, with the results of the coming calls of `sbrk`. -/
def mallocLoop : Nat → Nat → Nat → List (Option Nat) → Heap → Option (Nat × Heap)
  | 0, _, _, _, _ => none
  | fuel + 1, nunits, prevp, sbrks, s =>
    let p := s.ptr prevp
    if nunits ≤ s.size p then some (take s prevp nunits)
    else if p = s.freep then
      match morecore fuel s nunits (sbrks.headD none) with
      | none => none
      | some none => some (0, s)
      | some (some s') => mallocLoop fuel nunits s'.freep sbrks.tail s'
    else mallocLoop fuel nunits p sbrks s

/-- The units of a block for `nbytes` bytes, with its header. -/
def nunits (nbytes : Nat) : Nat := (nbytes + headerSize - 1) / headerSize + 1

/-- The first call of `malloc` makes an empty list. -/
def init (s : Heap) : Heap :=
  if s.freep = 0 then { (s.setPtr base base).setSize base 0 with freep := base } else s

/-- `malloc`. -/
def malloc (fuel : Nat) (s : Heap) (nbytes : Nat) (sbrks : List (Option Nat)) :
    Option (Nat × Heap) :=
  let s := init s
  mallocLoop fuel (uint (nunits nbytes)) s.freep sbrks s

/-! ## Steps -/

inductive Act where
  /-- `malloc`, with the results of `sbrk` and a bound on the turns of the loops. -/
  | malloc (nbytes : Nat) (sbrks : List (Option Nat)) (fuel : Nat)
  | free (ap : Nat) (fuel : Nat)
  /-- The program writes to its memory. -/
  | write (a ptr size : Nat)
deriving DecidableEq

def step (s : Heap) : Act → Option Heap
  | .malloc nbytes sbrks fuel => (malloc fuel s nbytes sbrks).map Prod.snd
  | .free ap fuel => free fuel s ap
  | .write a ptr size => some ((s.setPtr a ptr).setSize a size)

/-- The pointer to a block is in use. -/
def Live (s : Heap) (ap : Nat) : Prop := ∃ x ∈ s.live, ap = headerSize * (x.addr + 1)

/-- The requests are small enough for the argument of `sbrk`, `free` is applied to pointers
in use, and the program writes within its blocks. -/
def Proper (s : Heap) : Act → Prop
  | .malloc nbytes _ _ => nunits nbytes * headerSize < 2 ^ 31
  | .free ap _ => Live s ap
  | .write a _ _ => ∃ x ∈ s.live, x.addr < a ∧ a < x.addr + x.len

/-- Whether a block is live is decidable. -/
instance (s : Heap) (ap : Nat) : Decidable (Live s ap) :=
  inferInstanceAs (Decidable (∃ x ∈ s.live, ap = headerSize * (x.addr + 1)))

/-- The rule is decidable. -/
instance (s : Heap) (a : Act) : Decidable (Proper s a) := by
  cases a with
  | malloc nbytes sbrks fuel => exact inferInstanceAs (Decidable (_ < _))
  | free ap fuel => exact inferInstanceAs (Decidable (Live s ap))
  | write a ptr size => exact inferInstanceAs (Decidable (∃ x ∈ s.live, _ ∧ _))

end Umalloc
end Xv6
