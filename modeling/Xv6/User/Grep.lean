import Mathlib.Tactic
import Xv6.Lib.Cstring
import Xv6.User.Memmove
import Xv6.User.Match

/-!
# `grep` reads its input in pieces

`grep` reads into what is left of a buffer, cuts the complete lines out of it in place and
moves the beginning of the next line to the front.  Addresses are counted from the start of
the buffer.

Main results:

- Theorem {lit}`scan_spec`: the inner loop handles the lines in the buffer and stops at the
  beginning of the unfinished one.
- Theorem {lit}`grep_writes_matching_lines`: `grep` writes the matching lines, however the
  input arrives.
-/

namespace Xv6
namespace Grep

open List Lib Function

/-- `sizeof(buf)`. -/
def bufSize : Nat := 1024

/-- `'\n'`. -/
def newline : UInt8 := 10

/-- `read(fd, addr, want)` for a file with `rest` still to be read: it returns as many bytes as
`pick` says, but at least one if there is one and one is wanted, and never more than wanted. -/
def read (rest : List UInt8) (want pick : Nat) : List UInt8 := rest.take (min want (max 1 pick))

/-- The loop over the lines in the buffer, from `p` on.  A line is written by one `write`. -/
def scan (pattern : List UInt8) : (fuel : Nat) → (mem : Nat → UInt8) → (p : Nat) →
    (out : List (List UInt8)) → Option ((Nat → UInt8) × Nat × List (List UInt8))
  | 0, _, _, _ => none
  | fuel + 1, mem, p, out =>
    match strchr mem newline (bufSize - p) p with
    | none => none
    | some none => some (mem, p, out)
    | some (some q) =>
      let cut := update mem q 0
      match cstr cut (bufSize - p) p with
      | none => none
      | some text =>
        if matchText pattern text then
          let mem := update cut q newline
          scan pattern fuel mem (q + 1) (out ++ [bytesAt mem p (q + 1 - p)])
        else scan pattern fuel cut (q + 1) out

/-- The loop over the reads, of which `i` have been made. -/
def grepLoop (pattern : List UInt8) (pick : Nat → Nat) (i : Nat) (rest : List UInt8)
    (mem : Nat → UInt8) (m : Nat) (out : List (List UInt8)) : Option (List (List UInt8)) :=
  let chunk := read rest (bufSize - m - 1) (pick i)
  if _ : chunk = [] then some out
  else
    let n := chunk.length
    match scan pattern bufSize (update (store mem m chunk) (m + n) 0) 0 out with
    | none => none
    | some (mem, p, out) =>
      if m + n > 0 then
        grepLoop pattern pick (i + 1) (rest.drop n) (Ulib.memmove mem 0 p ((m + n - p : Nat) : Int))
          (m + n - p) out
      else grepLoop pattern pick (i + 1) (rest.drop n) mem (m + n) out
termination_by rest.length
decreasing_by
  all_goals
    have hpos : 0 < (read rest (bufSize - m - 1) (pick i)).length :=
      length_pos_iff.mpr (by assumption)
    have hle : (read rest (bufSize - m - 1) (pick i)).length ≤ rest.length := by
      rw [read, length_take]
      exact Nat.min_le_right _ _
    rw [length_drop]
    omega

/-- `grep`: what it writes, one `write` after the other. -/
def grep (pattern : List UInt8) (pick : Nat → Nat) (mem : Nat → UInt8) (content : List UInt8) :
    Option (List (List UInt8)) :=
  grepLoop pattern pick 0 content mem 0 []

/-! ## Lines -/

/-- The lines of a text that a newline ends, without it. -/
def terminated (content : List UInt8) : List (List UInt8) := (content.splitOn newline).dropLast

/-- What comes after the last newline. -/
def remnant (content : List UInt8) : List UInt8 := (content.splitOn newline).getLastD []

/-- What `grep` is to write for some lines. -/
def report (pattern : List UInt8) (lines : List (List UInt8)) : List (List UInt8) :=
  (lines.filter fun line => matchText pattern line).map fun line => line ++ [newline]

theorem report_append (pattern : List UInt8) (ls ls' : List (List UInt8)) :
    report pattern (ls ++ ls') = report pattern ls ++ report pattern ls' := by
  rw [report, filter_append, map_append]
  rfl

theorem report_cons (pattern line : List UInt8) (ls : List (List UInt8)) :
    report pattern (line :: ls) =
      (if matchText pattern line then [line ++ [newline]] else []) ++ report pattern ls := by
  unfold report
  rw [filter_cons]
  split
  next => rfl
  next => rfl

section Lines

variable {bs line rest : List UInt8}

theorem terminated_of_not_mem (hnone : newline ∉ bs) : terminated bs = [] := by
  rw [terminated, splitOn_eq_singleton hnone]
  rfl

theorem remnant_of_not_mem (hnone : newline ∉ bs) : remnant bs = bs := by
  rw [remnant, splitOn_eq_singleton hnone]
  rfl

theorem terminated_first (hline : newline ∉ line) :
    terminated (line ++ newline :: rest) = line :: terminated rest := by
  rw [terminated, splitOn_append_cons_self_of_not_mem hline,
    dropLast_cons_of_ne_nil (splitOn_ne_nil _ _)]
  rfl

theorem remnant_first (hline : newline ∉ line) :
    remnant (line ++ newline :: rest) = remnant rest := by
  have hne : rest.splitOn newline ≠ [] := splitOn_ne_nil _ _
  rw [remnant, remnant, splitOn_append_cons_self_of_not_mem hline, getLastD_cons,
    getLastD_eq_getLast?, getLastD_eq_getLast?, getLast?_eq_some_getLast hne]
  rfl

/-- Take a text apart at its first newline. -/
theorem lines_induction {motive : List UInt8 → Prop}
    (nil : ∀ bs, newline ∉ bs → motive bs)
    (first : ∀ line rest, newline ∉ line → motive rest → motive (line ++ newline :: rest))
    (bs : List UInt8) : motive bs := by
  induction hlen : bs.length using Nat.strong_induction_on generalizing bs with
  | _ n ih =>
    by_cases hmem : newline ∈ bs
    · obtain ⟨line, rest, rfl, hline⟩ := eq_append_cons_of_mem hmem
      refine first line rest hline (ih rest.length ?_ rest rfl)
      rw [← hlen, length_append, length_cons]
      omega
    · exact nil bs hmem

/-- The unfinished line of a first part begins the lines of the second. -/
theorem terminated_append (bs rest : List UInt8) :
    terminated (bs ++ rest) = terminated bs ++ terminated (remnant bs ++ rest) := by
  induction bs using lines_induction with
  | nil bs hnone => rw [terminated_of_not_mem hnone, remnant_of_not_mem hnone, nil_append]
  | first line more hline ih =>
    rw [append_assoc, cons_append, terminated_first hline, terminated_first hline,
      remnant_first hline, ih, cons_append]

theorem remnant_suffix (bs : List UInt8) : remnant bs <:+ bs := by
  induction bs using lines_induction with
  | nil bs hnone => rw [remnant_of_not_mem hnone]
  | first line more hline ih =>
    rw [remnant_first hline]
    exact ih.trans ((suffix_cons _ _).trans (suffix_append _ _))

theorem newline_notMem_remnant (bs : List UInt8) : newline ∉ remnant bs := by
  induction bs using lines_induction with
  | nil bs hnone =>
    rw [remnant_of_not_mem hnone]
    exact hnone
  | first line more hline ih =>
    rw [remnant_first hline]
    exact ih

end Lines

/-! ## The inner loop -/

/-- What the inner loop leaves: the matching lines are written and the unfinished line stands
at `p'`. -/
theorem scan_spec (pattern bs : List UInt8) {mem : Nat → UInt8} {p fuel : Nat}
    {out : List (List UInt8)} (hnul : 0 ∉ bs) (hmem : Holds mem p (bs ++ [0]))
    (hsize : p + bs.length < bufSize) (hfuel : bs.length < fuel) :
    ∃ mem' p', scan pattern fuel mem p out =
        some (mem', p', out ++ report pattern (terminated bs)) ∧
      p' + (remnant bs).length = p + bs.length ∧ Holds mem' p' (remnant bs) := by
  -- one line after the other; the buffer changes only in the line that is being handled
  induction bs using lines_induction generalizing mem p fuel out with
  | nil bs hnone =>
    obtain ⟨fuel, rfl⟩ := Nat.exists_eq_succ_of_ne_zero (Nat.ne_of_gt (Nat.zero_lt_of_lt hfuel))
    have hfind : strchr mem newline (bufSize - p) p = some none :=
      strchr_absent hnul hnone (by omega) hmem
    refine ⟨mem, p, ?_, ?_, ?_⟩
    · rw [scan, hfind, terminated_of_not_mem hnone]
      simp [report]
    · rw [remnant_of_not_mem hnone]
    · rw [remnant_of_not_mem hnone]
      exact (holds_append.mp hmem).1
  | first line rest hline ih =>
    obtain ⟨fuel, rfl⟩ := Nat.exists_eq_succ_of_ne_zero (Nat.ne_of_gt (Nat.zero_lt_of_lt hfuel))
    obtain ⟨hlineNul, hrestNul⟩ := not_or.mp (mt mem_append.mpr hnul)
    have hrestNul : 0 ∉ rest := fun h0 => hrestNul (mem_cons_of_mem _ h0)
    rw [length_append, length_cons] at hsize hfuel
    rw [append_assoc, holds_append, cons_append, holds_cons] at hmem
    obtain ⟨hmemLine, hmemNl, hmemRest⟩ := hmem
    have hfind : strchr mem newline (bufSize - p) p = some (some (p + line.length)) :=
      strchr_found (by decide) hlineNul hline (by omega)
        (holds_append.mpr ⟨hmemLine, hmemNl, trivial⟩)
    have hcut : Holds (update mem (p + line.length) 0) p (line ++ [0]) :=
      holds_append.mpr ⟨hmemLine.update (Or.inr le_rfl) 0, update_self .., trivial⟩
    have htext : cstr (update mem (p + line.length) 0) (bufSize - p) p = some line :=
      cstr_of_holds hlineNul (by omega) hcut
    have hnext : p + line.length + 1 + rest.length < bufSize := by omega
    rw [scan, hfind, terminated_first hline, remnant_first hline, report_cons]
    simp only [htext]
    split
    next hmatch =>
      rw [update_idem]
      have hback : Holds (update mem (p + line.length) newline) p (line ++ [newline]) :=
        holds_append.mpr ⟨hmemLine.update (Or.inr le_rfl) _, update_self .., trivial⟩
      have hwrite : bytesAt (update mem (p + line.length) newline) p
          (p + line.length + 1 - p) = line ++ [newline] := by
        have hlen : p + line.length + 1 - p = (line ++ [newline]).length := by
          rw [length_append, length_singleton]
          omega
        rw [hlen, hback.bytesAt_eq]
      obtain ⟨mem', p', hscan, hp', hmem'⟩ := @ih _ _ fuel (out ++ [line ++ [newline]]) hrestNul
        (hmemRest.update (Or.inl (Nat.lt_succ_self _)) newline) hnext (by omega)
      refine ⟨mem', p', ?_, ?_, hmem'⟩
      · rw [hwrite, hscan, append_assoc]
      · rw [hp', length_append, length_cons]
        omega
    next hmatch =>
      obtain ⟨mem', p', hscan, hp', hmem'⟩ := @ih _ _ fuel out hrestNul
        (hmemRest.update (Or.inl (Nat.lt_succ_self _)) 0) hnext (by omega)
      refine ⟨mem', p', ?_, ?_, hmem'⟩
      · rw [hscan, nil_append]
      · rw [hp', length_append, length_cons]
        omega

/-! ## The outer loop -/

theorem read_eq_nil {rest : List UInt8} {want pick : Nat} :
    read rest want pick = [] ↔ want = 0 ∨ rest = [] := by
  rw [read, take_eq_nil_iff, Nat.min_eq_zero_iff]
  exact or_congr_left (or_iff_left (by omega))

/-- A full buffer without a newline holds the beginning of a line that is too long. -/
theorem terminated_eq_nil {carry rest : List UInt8} (hcarry : newline ∉ carry)
    (hlines : ∀ line ∈ terminated (carry ++ rest), line.length ≤ bufSize - 2)
    (hfull : bufSize - carry.length - 1 = 0 ∨ rest = []) : terminated (carry ++ rest) = [] := by
  apply terminated_of_not_mem
  intro hmem
  rcases hfull with hfull | rfl
  · obtain ⟨line, more, heq, hline⟩ := eq_append_cons_of_mem hmem
    have hshort : line.length ≤ bufSize - 2 := by
      apply hlines
      rw [heq, terminated_first hline]
      exact mem_cons_self
    have hlong : line.length < carry.length := by
      unfold bufSize at hfull hshort
      omega
    have hat : (carry ++ rest)[line.length]? = some newline := by
      rw [heq, getElem?_append_right le_rfl, Nat.sub_self]
      rfl
    rw [getElem?_append_left hlong] at hat
    exact hcarry (mem_of_getElem? hat)
  · rw [append_nil] at hmem
    exact hcarry hmem

/-- With the beginning `carry` of a line in the buffer, the loop writes the matching lines of
`carry ++ rest`. -/
theorem grepLoop_spec (pattern : List UInt8) (pick : Nat → Nat) (i : Nat)
    (carry rest : List UInt8) {mem : Nat → UInt8} {out : List (List UInt8)}
    (hmem : Holds mem 0 carry) (hcarry : newline ∉ carry) (hnul : 0 ∉ carry ++ rest)
    (hsize : carry.length < bufSize)
    (hlines : ∀ line ∈ terminated (carry ++ rest), line.length ≤ bufSize - 2) :
    grepLoop pattern pick i rest mem carry.length out =
      some (out ++ report pattern (terminated (carry ++ rest))) := by
  -- every read makes the rest of the file shorter
  induction hlen : rest.length using Nat.strong_induction_on
    generalizing i carry rest mem out with
  | _ n ih =>
    obtain ⟨chunk, hchunk⟩ : ∃ chunk, read rest (bufSize - carry.length - 1) (pick i) = chunk :=
      ⟨_, rfl⟩
    rw [grepLoop]
    simp only [hchunk]
    by_cases hend : chunk = []
    · have hfull := read_eq_nil.mp (hchunk.trans hend)
      rw [dif_pos hend, terminated_eq_nil hcarry hlines hfull]
      simp [report]
    rw [dif_neg hend]
    have hpos : 0 < chunk.length := length_pos_iff.mpr hend
    have hfits : carry.length + chunk.length < bufSize := by
      have hwant : chunk.length ≤ bufSize - carry.length - 1 := by
        rw [← hchunk, read, length_take]
        omega
      omega
    obtain ⟨later, rfl⟩ : chunk <+: rest := by
      rw [← hchunk]
      exact List.take_prefix _ _
    rw [drop_left]
    rw [← append_assoc] at hnul hlines ⊢
    obtain ⟨hbsNul, hlaterNul⟩ := not_or.mp (mt mem_append.mpr hnul)
    have hstored : Holds (update (store mem carry.length chunk)
        (carry.length + chunk.length) 0) 0 (carry ++ chunk ++ [0]) := by
      rw [holds_append, holds_append, length_append]
      have hbelow : Holds (store mem carry.length chunk) 0 carry := hmem.store (by omega)
      have habove : Holds (store mem carry.length chunk) (0 + carry.length) chunk := by
        rw [Nat.zero_add]
        exact holds_store
      refine ⟨⟨hbelow.update (Or.inr (by omega)) 0, habove.update (Or.inr (by omega)) 0⟩, ?_, ?_⟩
      · rw [Nat.zero_add, update_self]
      · trivial
    have hlenBs : (carry ++ chunk).length = carry.length + chunk.length := length_append
    obtain ⟨mem', p', hscan, hp', hmem'⟩ := @scan_spec pattern (carry ++ chunk) _ _ bufSize out
      hbsNul hstored (by omega) (by omega)
    rw [hscan]
    simp only [gt_iff_lt, if_pos (Nat.add_pos_right carry.length hpos)]
    have hleft : carry.length + chunk.length - p' = (remnant (carry ++ chunk)).length := by omega
    have hspace : bufSize ≤ addrSpace := by decide
    rw [hleft, Ulib.memmove_eq (by omega) (by omega), terminated_append (carry ++ chunk) later,
      report_append, ← append_assoc out]
    have hkeep : ∀ x ∈ remnant (carry ++ chunk), x ∈ carry ++ chunk := fun x hx =>
      (remnant_suffix _).subset hx
    refine ih later.length ?_ (i + 1) _ later hmem'.moved (newline_notMem_remnant _) ?_ (by omega)
      ?_ rfl
    · rw [← hlen, length_append]
      omega
    · intro h0
      rcases mem_append.mp h0 with h0 | h0
      · exact hbsNul (hkeep 0 h0)
      · exact hlaterNul h0
    · intro line hline
      apply hlines
      rw [terminated_append]
      exact mem_append_right _ hline

/-- `grep` writes exactly the matching lines of a file without NUL bytes and with lines of at
most 1022 bytes, each once and in order, however the file arrives. -/
theorem grep_writes_matching_lines (pattern : List UInt8) (pick : Nat → Nat)
    (mem : Nat → UInt8) (content : List UInt8) (hnul : 0 ∉ content)
    (hlines : ∀ line ∈ content.splitOn newline, line.length ≤ 1022) :
    grep pattern pick mem content =
      some (((content.splitOn newline).dropLast.filter fun line => matchText pattern line).map
        fun line => line ++ [newline]) := by
  exact grepLoop_spec pattern pick 0 [] content trivial not_mem_nil hnul (by decide)
    fun line hline => hlines line (mem_of_mem_dropLast hline)

/-- Two lines, read byte by byte; the first one matches. -/
theorem grep_writes_matching_lines_bytewise :
    grep [97] (fun _ => 1) (fun _ => 0) [97, 10, 98, 10] = some [[97, 10]] :=
  grep_writes_matching_lines [97] (fun _ => 1) (fun _ => 0) [97, 10, 98, 10] (by decide) (by decide)

end Grep
end Xv6
