import Mathlib.Tactic
import Xv6.Fs.Refine
import Xv6.Vm.Lifecycle

/-!
# Loading a program

`loadseg` and the loop over the program headers in `exec` of `exec.c`.  The file is given by
its bytes, which is what `readi` returns.

Main results:

- Theorem {lit}`returns_readi_readBytes`: `readi` returns these bytes.
- Theorem {lit}`Loading.wp_loadseg`: one segment, page by page.
- Theorem {lit}`Loading.wp_loadHeaders`: the image that the headers leave in memory.
-/

namespace Xv6
namespace Exec

open Lib Vm

/-! ## The functions -/

/-- `ELF_MAGIC`. -/
def elfMagic : Nat := 0x464C457F

/-- `sizeof(struct elfhdr)`. -/
def elfhdrSize : Nat := 64

/-- `sizeof(struct proghdr)`. -/
def proghdrSize : Nat := 56

/-- `ELF_PROG_LOAD`. -/
def elfProgLoad : Nat := 1

/-- The `k` bytes at an offset of a structure, as a number. -/
def field (bytes : List UInt8) (off k : Nat) : Nat :=
  Lib.getLE (fun i => bytes.getD i 0) off k

/-- The bytes that `readi` copies to kernel memory. -/
def readBytes (file : List UInt8) (off n : Nat) : List UInt8 :=
  if file.length < off ∨ uint (off + n) < off then [] else (file.drop off).take n

/-- `struct elfhdr`. -/
structure Elfhdr where
  magic : Nat
  entry : Nat
  phoff : Nat
  phnum : Nat

def elfhdr (bytes : List UInt8) : Elfhdr where
  magic := field bytes 0 4
  entry := field bytes 24 8
  phoff := field bytes 32 8
  phnum := field bytes 56 2

/-- `struct proghdr`. -/
structure Proghdr where
  type : Nat
  off : Nat
  vaddr : Nat
  filesz : Nat
  memsz : Nat

def proghdr (bytes : List UInt8) : Proghdr where
  type := field bytes 0 4
  off := field bytes 8 8
  vaddr := field bytes 16 8
  filesz := field bytes 32 8
  memsz := field bytes 40 8

/-- The body of the loop of `loadseg`. -/
def loadOne (file : List UInt8) (pagetable va offset sz i : Nat) : Prog Phys (Bool ⊕ Nat) :=
  if i < sz then do
    let pa ← walkaddr pagetable (u64 (va + i))
    if pa = 0 then throw "loadseg: address should exist"
    else
      let n := if sz - i < pgsize then sz - i else pgsize
      let bytes := readBytes file (uint (offset + i)) n
      modify fun s => s.write pa (putBytes (s.mem pa) 0 bytes)
      if bytes.length ≠ n then pure (.inl false) else pure (.inr (uint (i + pgsize)))
  else pure (.inl true)

/-- `loadseg`. -/
def loadseg (file : List UInt8) (pagetable va offset sz : Nat) : Prog Phys Bool :=
  if va % pgsize ≠ 0 then throw "loadseg: va must be page aligned"
  else loop (loadOne file pagetable va offset sz) rounds 0

/-- One program header: whether it is loaded, and the new `sz`. -/
def loadHeader (K : Image) (file : List UInt8) (pagetable : Nat) (ph : Proghdr) (sz : Nat) :
    Prog Phys (Bool × Nat) :=
  if ph.type ≠ elfProgLoad then pure (true, sz)
  else if ph.memsz < ph.filesz then pure (false, sz)
  else if u64 (ph.vaddr + ph.memsz) < ph.vaddr then pure (false, sz)
  else do
    let sz1 ← uvmalloc K pagetable sz (u64 (ph.vaddr + ph.memsz))
    if sz1 = 0 then pure (false, sz)
    else if ph.vaddr % pgsize ≠ 0 then pure (false, sz1)
    else
      let ok ← loadseg file pagetable ph.vaddr (uint ph.off) (uint ph.filesz)
      pure (ok, sz1)

/-- The loop over the program headers, with the number of those that are left. -/
def loadHeaders (K : Image) (file : List UInt8) (pagetable : Nat) :
    Nat → Nat → Nat → Prog Phys (Bool × Nat)
  | 0, _, sz => pure (true, sz)
  | k + 1, off, sz => do
    let bytes := readBytes file off proghdrSize
    if bytes.length ≠ proghdrSize then pure (false, sz)
    else
      let r ← loadHeader K file pagetable (proghdr bytes) sz
      if r.1 then loadHeaders K file pagetable k (uint (off + proghdrSize)) r.2 else pure r

/-! ## Reading the file -/

section Read

variable {file : List UInt8} {off n : Nat}

theorem readBytes_of_lt (hover : off + n < 2 ^ 32) :
    readBytes file off n = (file.drop off).take n := by
  unfold readBytes
  split
  next hcond =>
    rw [uint_of_lt hover] at hcond
    rw [List.drop_eq_nil_of_le (by omega), List.take_nil]
  next => rfl

/-- `readi` into kernel memory. -/
theorem returns_readi_readBytes {fs : Fs} {ip : Nat} (h : Fs.Ok fs)
    (hlocked : fs.view.locked ip = true) (hoff : off < 2 ^ 32) (hn : n < 2 ^ 32) :
    Returns (Fs.readi ip (fun _ => true) off n) fs fun r fs' =>
      fs' = fs ∧ r = readBytes (Fs.contents fs ip) off n := by
  by_cases hover : off + n < 2 ^ 32
  · rw [readBytes_of_lt hover]
    exact Fs.returns_readi h hlocked hover
  · -- the sum wraps
    have hwrap : uint (off + n) < off := by
      unfold uint
      omega
    unfold Returns Fs.readi
    rw [wp_bind, Fs.wp_lockedInode hlocked, if_pos (Or.inr hwrap), readBytes,
      if_pos (Or.inr hwrap)]
    exact wp_pure.mpr ⟨rfl, rfl⟩

/-- A full read is one inside the file. -/
theorem length_readBytes (hover : off + n < 2 ^ 32) :
    (readBytes file off n).length = n ↔ n = 0 ∨ off + n ≤ file.length := by
  rw [readBytes_of_lt hover, List.length_take, List.length_drop]
  omega

theorem length_readBytes_lt (hn : 0 < n) (hout : file.length < off + n) :
    (readBytes file off n).length < n := by
  unfold readBytes
  split
  · exact hn
  · rw [List.length_take, List.length_drop]
    omega

theorem getElem?_readBytes {j : Nat} (hover : off + n < 2 ^ 32) (hj : j < n)
    (hin : off + n ≤ file.length) : (readBytes file off n)[j]? = some (file.getD (off + j) 0) := by
  rw [readBytes_of_lt hover, List.getElem?_take_of_lt hj, List.getElem?_drop,
    List.getD_eq_getElem?_getD, List.getElem?_eq_getElem (by omega), Option.getD_some]

end Read

/-! ## The bytes of an address space -/

/-- The physical page of a virtual page. -/
def pageOf (M : Nat → Option Nat) (v : Nat) : Nat := ((M v).map pte2pa).getD 0

/-- The byte at an address. -/
def byteOf (s : Phys) (M : Nat → Option Nat) (a : Nat) : UInt8 :=
  s.mem (pageOf M (a / pgsize)) (a % pgsize)

/-- The memory with `len` bytes of the file, from `offset` on, at address `va`. -/
def filled (file : List UInt8) (offset va len : Nat) (img : Nat → UInt8) : Nat → UInt8 := fun a =>
  if va ≤ a ∧ a < va + len then file.getD (offset + (a - va)) 0 else img a

/-- An address space whose pages the user can access. -/
structure Loading (K : Image) (s : Phys) (t n : Nat) (M : Nat → Option Nat) : Prop extends
    Space K s t n M where
  usable : ∀ v pte, v < n → M v = some pte → pteFlags pte = userPerm ||| pteV

section Bytes

variable {K : Image} {s s' : Phys} {t n v a pte : Nat} {M M' : Nat → Option Nat}
variable {E : String → Phys → Prop}

theorem pageOf_of_some (hpte : M v = some pte) : pageOf M v = pte2pa pte := by
  rw [pageOf, hpte]
  rfl

theorem byteOf_write (h : Space K s t n M) (hv : v < n) (hpte : M v = some pte) (c : Page)
    (ha : a < n * pgsize) : byteOf (s.write (pte2pa pte) c) M a =
      if a / pgsize = v then c (a % pgsize) else byteOf s M a := by
  have hav : a / pgsize < n := Nat.div_lt_of_lt_mul (by rw [Nat.mul_comm]; exact ha)
  split
  next heq =>
    rw [byteOf, heq, pageOf_of_some hpte, mem_write_same]
  next hne =>
    obtain ⟨pte', hpte', -⟩ := h.leaf _ hav
    rw [byteOf, byteOf, pageOf_of_some hpte', mem_write_of_ne]
    exact fun heq => hne (h.once _ _ pte' pte hav hv hpte' hpte heq)

theorem and_pteU (pte : Nat) : pte &&& pteU = pteFlags pte &&& pteU := by
  rw [pteFlags, Nat.and_assoc]
  rfl

/-- `walkaddr` finds every page of the user. -/
theorem Loading.wp_walkaddr {Q : Nat → Phys → Prop} {va : Nat} (h : Loading K s t n M)
    (hv : va / pgsize < n) (hQ : ∀ pte, M (va / pgsize) = some pte → pte2pa pte ≠ 0 →
      Q (pte2pa pte) s) : Wp (walkaddr t va) s Q E := by
  have hle := h.le
  obtain ⟨pte, hpte, -⟩ := h.leaf _ hv
  have hram := h.owns.ok _ (Or.inl (Or.inr (mem_backing hv hpte)))
  have hva : ¬ maxva ≤ va := by
    unfold userMax npages maxva pgsize at *
    omega
  refine wp_walkaddr_lookup ?_
  rw [if_neg hva, h.toSpace.table.map _ (Nat.lt_of_lt_of_le hv (le_trans hle (by decide))), hpte,
    userPa, and_pteU, h.usable _ _ hv hpte, if_neg (by decide)]
  exact hQ pte hpte (Nat.ne_of_gt hram.pos)

/-- What one round of `loadseg` leaves in memory. -/
theorem filled_round {file : List UInt8} {offset va i m a v : Nat} {bytes : List UInt8} {c : Page}
    {img : Nat → UInt8} (hva : va + i = v * pgsize) (hm : m ≤ pgsize)
    (hbytes : ∀ j < m, bytes[j]? = some (file.getD (offset + i + j) 0)) (hlen : bytes.length = m)
    (hc : ∀ a, a / pgsize = v → c (a % pgsize) = filled file offset va i img a) :
    (if a / pgsize = v then putBytes c 0 bytes (a % pgsize) else filled file offset va i img a) =
      filled file offset va (i + m) img a := by
  have hdiv := Nat.div_add_mod a pgsize
  split
  next hpage =>
    rw [hpage, Nat.mul_comm] at hdiv
    rw [putBytes, if_pos (Nat.zero_le _), Nat.sub_zero, hc a hpage]
    unfold filled
    by_cases hj : a % pgsize < m
    · rw [hbytes _ hj, Option.getD_some, if_pos (by omega)]
      congr 1
      omega
    · rw [List.getElem?_eq_none (by omega), Option.getD_none, if_neg (by omega), if_neg (by omega)]
  next hpage =>
    unfold filled
    have hout : ¬ (va + i ≤ a ∧ a < va + i + m) := by
      rintro ⟨hge, hlt⟩
      refine hpage ((Nat.div_eq_iff (by decide)).mpr ⟨?_, ?_⟩)
      · omega
      · unfold pgsize at *
        omega
    by_cases hin : va ≤ a ∧ a < va + i
    · rw [if_pos hin, if_pos (by omega)]
    · rw [if_neg hin, if_neg (by omega)]

/-- The state of the loop of `loadseg` after the first `i` bytes. -/
structure Segment (K : Image) (s s' : Phys) (t n : Nat) (M : Nat → Option Nat)
    (file : List UInt8) (offset va i : Nat) : Prop where
  loading : Loading K s' t n M
  trade : Trade s s' (owned s.mem t n M) (owned s'.mem t n M)
  inside : i = 0 ∨ offset + i ≤ file.length
  bytes : ∀ a < n * pgsize, byteOf s' M a = filled file offset va i (byteOf s M) a

/-- `loadseg` copies the bytes of the file, if they are inside the file. -/
theorem Loading.wp_loadseg {file : List UInt8} {va offset sz : Nat} {Q : Bool → Phys → Prop}
    (h : Loading K s t n M) (halign : va % pgsize = 0) (hroom : va + sz ≤ n * pgsize)
    (hfile : file.length < 2 ^ 31) (hoff : offset < 2 ^ 32)
    (htrue : ∀ s', Segment K s s' t n M file offset va sz → Q true s')
    (hfalse : ∀ s', Loading K s' t n M → Trade s s' (owned s.mem t n M) (owned s'.mem t n M) →
      ¬ (sz = 0 ∨ offset + sz ≤ file.length) → Q false s') :
    Wp (loadseg file t va offset sz) s Q E := by
  have hn := h.le_ram
  unfold loadseg
  rw [if_neg (by omega)]
  -- after some rounds the first `i` bytes are there
  refine wp_loop (fun i s₁ => i % pgsize = 0 ∧ i < sz + pgsize ∧
      Segment K s s₁ t n M file offset va (min i sz)) (fun i _ => sz - i) ?_ ?_ ?_
  · rintro i s₁ ⟨hi, hlt, hseg⟩
    unfold loadOne
    split
    next hmore =>
      have hbound : va + i < n * pgsize := by omega
      have hpage : (va + i) / pgsize < n :=
        Nat.div_lt_of_lt_mul (by rw [Nat.mul_comm]; exact hbound)
      have hmin : min i sz = i := by omega
      rw [hmin] at hseg
      have hu64 : u64 (va + i) = va + i := by
        unfold u64 pgsize at *
        omega
      rw [wp_bind, hu64]
      refine hseg.loading.wp_walkaddr hpage fun pte hpte hne => ?_
      rw [if_neg hne]
      generalize hm : (if sz - i < pgsize then sz - i else pgsize) = m
      have hmle : m ≤ pgsize ∧ i + m ≤ sz ∧ 0 < m ∧ (m < pgsize → i + m = sz) := by
        rw [← hm]
        unfold pgsize
        split
        · omega
        · omega
      have hoffi : uint (offset + i) = offset + i := by
        refine uint_of_lt ?_
        have := hseg.inside
        unfold pgsize at *
        omega
      rw [hoffi]
      rw [wp_bind_modify]
      generalize hbytes : readBytes file (offset + i) m = bytes
      obtain ⟨hspace, htrade⟩ :=
        hseg.loading.toSpace.write hpage hpte (putBytes (s₁.mem (pte2pa pte)) 0 bytes)
      have hloading := Loading.mk hspace hseg.loading.usable
      have htrade' := hseg.trade.trans htrade
      by_cases hin : offset + i + m ≤ file.length
      · have hover : offset + i + m < 2 ^ 32 := by omega
        have hlen : bytes.length = m := by
          rw [← hbytes]
          exact (length_readBytes hover).mpr (Or.inr hin)
        have hnext : uint (i + pgsize) = i + pgsize := by
          refine uint_of_lt ?_
          unfold pgsize at *
          omega
        rw [if_neg (not_not.mpr hlen), wp_pure, hnext]
        have hsum : min (i + pgsize) sz = i + m := by omega
        refine ⟨⟨by rw [Nat.add_mod_right]; exact hi, by omega, hloading, htrade', ?_, ?_⟩, ?_⟩
        · rw [hsum, ← Nat.add_assoc]
          exact Or.inr hin
        · intro a ha
          have hcong : ∀ a, a / pgsize = (va + i) / pgsize → s₁.mem (pte2pa pte) (a % pgsize) =
              filled file offset va i (byteOf s M) a := by
            intro a hpage'
            have halt : a < n * pgsize := by
              have hdiv := Nat.div_add_mod a pgsize
              have hmod := Nat.mod_lt a (show 0 < pgsize by decide)
              rw [hpage'] at hdiv
              have := Nat.mul_le_mul_left pgsize (Nat.succ_le_of_lt hpage)
              rw [Nat.mul_succ] at this
              rw [Nat.mul_comm n]
              omega
            rw [← hseg.bytes a halt, byteOf, hpage', pageOf_of_some hpte]
          rw [byteOf_write hseg.loading.toSpace hpage hpte _ ha, hsum, hseg.bytes a ha]
          refine filled_round ?_ hmle.1 (fun j hj => ?_) hlen hcong
          · unfold pgsize at *
            omega
          · rw [← hbytes]
            exact getElem?_readBytes hover hj hin
        · dsimp only
          unfold pgsize
          omega
      · have hlen : bytes.length ≠ m := by
          rw [← hbytes]
          exact Nat.ne_of_lt (length_readBytes_lt hmle.2.2.1 (by omega))
        rw [if_pos hlen, wp_pure]
        exact hfalse _ hloading htrade' (by omega)
    next hdone =>
      have hmin : min i sz = sz := by omega
      rw [hmin] at hseg
      exact wp_pure.mpr (htrue s₁ hseg)
  · refine ⟨Nat.zero_mod _, ?_, h, h.owns.refl, Or.inl (Nat.zero_min sz), fun a _ => ?_⟩
    · unfold pgsize
      omega
    · rw [Nat.zero_min, filled, if_neg (by omega)]
  · unfold rounds pgsize at *
    omega

end Bytes

/-! ## The headers -/

namespace Proghdr

/-- What loading a header does to the memory.  The offset is passed as a `uint`. -/
def place (file : List UInt8) (img : Nat → UInt8) (ph : Proghdr) : Nat → UInt8 :=
  if ph.type = elfProgLoad then filled file (uint ph.off) ph.vaddr ph.filesz img else img

/-- What it does to `sz`. -/
def grow (sz : Nat) (ph : Proghdr) : Nat :=
  if ph.type = elfProgLoad then max sz (ph.vaddr + ph.memsz) else sz

/-- The checks that a segment has passed. -/
structure Accepted (file : List UInt8) (ph : Proghdr) : Prop where
  filesz_le : ph.filesz ≤ ph.memsz
  aligned : ph.vaddr % pgsize = 0
  inside : ph.filesz = 0 ∨ uint ph.off + ph.filesz ≤ file.length

end Proghdr

/-- The program loaded so far. -/
structure Loaded (K : Image) (s : Phys) (t sz : Nat) (M : Nat → Option Nat)
    (img : Nat → UInt8) : Prop where
  loading : Loading K s t (npg sz) M
  tops : Tops M
  bytes : ∀ a < npg sz * pgsize, byteOf s M a = img a
  zero : ∀ a, npg sz * pgsize ≤ a → img a = 0

section Headers

variable {K : Image} {s s' : Phys} {t n sz : Nat} {M M' : Nat → Option Nat} {img : Nat → UInt8}
variable {file : List UInt8} {ph : Proghdr} {E : String → Phys → Prop}

/-- The address space has got new pages. -/
theorem Loaded.grown (h : Loaded K s t sz M img) (h' : Space K s' t n M')
    (hgrown : Grown s s' (npg sz) n M M') :
    Loading K s' t n M' ∧ Tops M' ∧ ∀ a < n * pgsize, byteOf s' M' a = img a := by
  refine ⟨⟨h', fun v pte hv hpte => ?_⟩, h.tops.congr hgrown.agree, fun a ha => ?_⟩
  · by_cases hold : v < npg sz
    · rw [hgrown.agree v (Or.inl hold)] at hpte
      exact h.loading.usable v pte hold hpte
    · obtain ⟨p, hp, -, -⟩ := hgrown.fresh v (by omega) hv
      obtain rfl := Option.some.inj (hp.symm.trans hpte)
      exact mapEntry_flags (by decide)
  · have hv : a / pgsize < n := Nat.div_lt_of_lt_mul (by rw [Nat.mul_comm]; exact ha)
    by_cases hold : a / pgsize < npg sz
    · obtain ⟨pte, hpte, -⟩ := h.loading.leaf _ hold
      have ha' : a < npg sz * pgsize := (Nat.div_lt_iff_lt_mul (by decide)).mp hold
      rw [← h.bytes a ha', byteOf, byteOf, pageOf_of_some hpte,
        pageOf_of_some ((hgrown.agree _ (Or.inl hold)).trans hpte), hgrown.keeps _ pte hold hpte]
    · obtain ⟨p, hp, hpa, hzero⟩ := hgrown.fresh _ (by omega) hv
      rw [byteOf, pageOf_of_some hp, hpa, hzero, h.zero a]
      exact (Nat.le_div_iff_mul_le (by decide)).mp (by omega)

/-- One header. -/
theorem Loaded.wp_loadHeader {Q : Bool × Nat → Phys → Prop} (h : Loaded K s t sz M img)
    (hfile : file.length < 2 ^ 31) (hvaddr : ph.vaddr < 2 ^ 64) (hmemsz : ph.memsz < 2 ^ 64)
    (hok : ∀ s' M', Loaded K s' t (ph.grow sz) M' (ph.place file img) →
      Trade s s' (owned s.mem t (npg sz) M) (owned s'.mem t (npg (ph.grow sz)) M') →
      (ph.type = elfProgLoad → ph.Accepted file) → Q (true, ph.grow sz) s')
    (hbad : ∀ s' M' sz', Loading K s' t (npg sz') M' → Tops M' →
      Trade s s' (owned s.mem t (npg sz) M) (owned s'.mem t (npg sz') M') → Q (false, sz') s') :
    Wp (loadHeader K file t ph sz) s Q E := by
  have hn := h.loading.le_ram
  have hsz : sz + pgsize ≤ 2 ^ 64 := by
    unfold npg pgsize at *
    omega
  have hstay := hbad s M sz h.loading h.tops h.loading.owns.refl
  unfold loadHeader
  split
  next htype =>
    have hgrow : ph.grow sz = sz := if_neg htype
    have hplace : ph.place file img = img := if_neg htype
    rw [hgrow, hplace] at hok
    exact wp_pure.mpr (hok s M h h.loading.owns.refl fun hload => absurd hload htype)
  next htype =>
    rw [not_not] at htype
    split
    next => exact wp_pure.mpr hstay
    next hfilesz =>
      split
      next => exact wp_pure.mpr hstay
      next hover =>
        have hend : u64 (ph.vaddr + ph.memsz) = ph.vaddr + ph.memsz := by
          unfold u64 at *
          omega
        have hgrow : ph.grow sz = max sz (ph.vaddr + ph.memsz) := if_pos htype
        rw [hend, wp_bind]
        -- the end is the same whether `uvmalloc` had to do something or not
        have hrest : ∀ s₁ M₁, Loading K s₁ t (npg (ph.grow sz)) M₁ → Tops M₁ →
            Trade s s₁ (owned s.mem t (npg sz) M) (owned s₁.mem t (npg (ph.grow sz)) M₁) →
            (∀ a < npg (ph.grow sz) * pgsize, byteOf s₁ M₁ a = img a) → ph.grow sz ≠ 0 →
            Wp (if ph.grow sz = 0 then pure (false, sz)
              else if ph.vaddr % pgsize ≠ 0 then pure (false, ph.grow sz)
              else do
                let ok ← loadseg file t ph.vaddr (uint ph.off) (uint ph.filesz)
                pure (ok, ph.grow sz)) s₁ Q E := by
          intro s₁ M₁ h₁ htops₁ htrade₁ hbytes₁ hne
          have hn₁ := h₁.le_ram
          have hsmall : ph.vaddr + ph.filesz ≤ npg (ph.grow sz) * pgsize := by
            have := npg_mul_ge (ph.grow sz)
            omega
          have huint : uint ph.filesz = ph.filesz := by
            refine uint_of_lt ?_
            unfold pgsize at *
            omega
          rw [if_neg hne]
          split
          next => exact wp_pure.mpr (hbad s₁ M₁ _ h₁ htops₁ htrade₁)
          next halign =>
            rw [huint, wp_bind]
            refine h₁.wp_loadseg (not_not.mp halign) hsmall hfile (uint_lt _) ?_ ?_
            · intro s₂ hseg
              have hplace : ph.place file img = filled file (uint ph.off) ph.vaddr ph.filesz img :=
                if_pos htype
              refine wp_pure.mpr (hok s₂ M₁ ⟨hseg.loading, htops₁, ?_, ?_⟩
                (htrade₁.trans hseg.trade) fun _ => ⟨by omega, not_not.mp halign, hseg.inside⟩)
              · intro a ha
                rw [hseg.bytes a ha, hplace]
                unfold filled
                rw [hbytes₁ a ha]
              · intro a ha
                rw [hplace, filled, if_neg (by omega)]
                refine h.zero a (le_trans (Nat.mul_le_mul_right _ (npg_mono ?_)) ha)
                rw [hgrow]
                exact le_max_left ..
            · intro s₂ h₂ htrade₂ _
              exact wp_pure.mpr (hbad s₂ M₁ _ h₂ htops₁ (htrade₁.trans htrade₂))
        by_cases hle : sz ≤ ph.vaddr + ph.memsz
        · rw [max_eq_right hle] at hgrow
          refine h.loading.toSpace.wp_uvmalloc (pgroundup_eq hsz) hle ?_ ?_
          · intro s₁ M₁ h₁ hgrown htrade
            rw [max_eq_right (npg_mono hle), ← hgrow] at h₁ hgrown htrade
            obtain ⟨hloading, htops, hbytes⟩ := h.grown h₁ hgrown
            rw [← hgrow]
            by_cases hzero : ph.grow sz = 0
            · rw [if_pos hzero]
              have hsz0 : sz = ph.grow sz := by omega
              refine wp_pure.mpr (hbad s₁ M₁ sz ?_ htops ?_)
              · rw [hsz0]
                exact hloading
              · nth_rewrite 2 [hsz0]
                exact htrade
            · exact hrest s₁ M₁ hloading htops htrade hbytes hzero
          · intro s₁ M₁ h₁ hagree _ htrade
            rw [if_pos rfl]
            refine wp_pure.mpr (hbad s₁ M₁ sz ⟨h₁, fun v pte hv hpte => ?_⟩
              (h.tops.congr hagree) htrade)
            rw [hagree v (Or.inl hv)] at hpte
            exact h.loading.usable v pte hv hpte
        · rw [max_eq_left (by omega)] at hgrow
          unfold uvmalloc
          rw [if_pos (by omega), wp_pure]
          rw [hgrow] at hrest
          exact hrest s M h.loading h.tops h.loading.owns.refl h.bytes (by omega)

/-- The headers that the loop reads, if the file has them. -/
def headersAt (file : List UInt8) : Nat → Nat → Option (List Proghdr)
  | 0, _ => some []
  | k + 1, off =>
    let bytes := readBytes file off proghdrSize
    if bytes.length ≠ proghdrSize then none
    else (headersAt file k (uint (off + proghdrSize))).map (proghdr bytes :: ·)

theorem field_lt (bytes : List UInt8) (off k : Nat) : field bytes off k < 256 ^ k :=
  getLE_lt _ _ _

/-- All headers: the memory and the size that they leave. -/
theorem Loaded.wp_loadHeaders {k off : Nat} {Q : Bool × Nat → Phys → Prop}
    (h : Loaded K s t sz M img) (hfile : file.length < 2 ^ 31)
    (hok : ∀ s' M' hs, headersAt file k off = some hs →
      Loaded K s' t (hs.foldl Proghdr.grow sz) M' (hs.foldl (Proghdr.place file) img) →
      Trade s s' (owned s.mem t (npg sz) M)
        (owned s'.mem t (npg (hs.foldl Proghdr.grow sz)) M') →
      (∀ ph ∈ hs, ph.type = elfProgLoad → ph.Accepted file) →
      Q (true, hs.foldl Proghdr.grow sz) s')
    (hbad : ∀ s' M' sz', Loading K s' t (npg sz') M' → Tops M' →
      Trade s s' (owned s.mem t (npg sz) M) (owned s'.mem t (npg sz') M') → Q (false, sz') s') :
    Wp (loadHeaders K file t k off sz) s Q E := by
  induction k generalizing s sz M img off Q with
  | zero =>
    exact wp_pure.mpr (hok s M [] rfl h h.loading.owns.refl (List.forall_mem_nil _))
  | succ k ih =>
    unfold loadHeaders
    dsimp only
    split
    next => exact wp_pure.mpr (hbad s M sz h.loading h.tops h.loading.owns.refl)
    next hlen =>
      have hhead : ∀ hs, headersAt file k (uint (off + proghdrSize)) = some hs →
          headersAt file (k + 1) off =
            some (proghdr (readBytes file off proghdrSize) :: hs) := by
        intro hs hhs
        simp only [headersAt, if_neg hlen, hhs, Option.map_some]
      have hvaddr : (proghdr (readBytes file off proghdrSize)).vaddr < 2 ^ 64 := field_lt _ _ _
      have hmemsz : (proghdr (readBytes file off proghdrSize)).memsz < 2 ^ 64 := field_lt _ _ _
      generalize proghdr (readBytes file off proghdrSize) = ph at hhead hvaddr hmemsz ⊢
      rw [wp_bind]
      refine h.wp_loadHeader hfile hvaddr hmemsz ?_ ?_
      · intro s₁ M₁ h₁ htrade₁ hacc
        rw [if_pos rfl]
        refine ih h₁ (fun s' M' hs hhs h' htrade hall => ?_) fun s' M' sz' h' htops htrade => ?_
        · have hcons := hok s' M' _ (hhead hs hhs)
          rw [List.foldl_cons, List.foldl_cons] at hcons
          exact hcons h' (htrade₁.trans htrade) (List.forall_mem_cons.mpr ⟨hacc, hall⟩)
        · exact hbad s' M' sz' h' htops (htrade₁.trans htrade)
      · intro s₁ M₁ sz₁ h₁ htops htrade
        rw [if_neg Bool.false_ne_true]
        exact wp_pure.mpr (hbad s₁ M₁ sz₁ h₁ htops htrade)

end Headers

end Exec
end Xv6
