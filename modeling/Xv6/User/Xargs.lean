import Mathlib.Tactic
import Xv6.Lib.Cstring
import Xv6.Lib.Run
import Xv6.Exec.Args

/-!
# `xargs`

`xargs` reads lines with `readline` and cuts each of them into words with `split`, which
copies the words to strings that the caller provides.

Main results:

- Theorem {lit}`split_right_iff`: `split` is right only for a line of one word, and only if the
  array in which it collects the word happens to hold a zero behind it.
- Theorem {lit}`lines_handed_on`: when the loop of `xargs` hands all lines on.
-/

namespace Xv6
namespace Xargs

open List Lib Function

/-- `MAX_ARG_BYTES`. -/
def maxArgBytes : Nat := 512

/-- `sizeof(curr)` of `split`, `sizeof(line)` of `xargs`. -/
def bufBytes : Nat := 512

/-! ## `split` -/

/-- The loop of `split` over the rest of the string, which has `len` bytes in all.  The strings
that `splitted` points to are in `mem`; two entries may point to the same string.  `strcpy`
runs on if `curr` is not terminated. -/
def splitLoop {β : Type} [DecidableEq β] (delimiter : UInt8) (splitted : Nat → β)
    (splittedCap len : Nat) : (rest : List UInt8) → (i currI count : Nat) →
    (curr : Nat → UInt8) → (mem : β → List UInt8) → Except String (Nat × (β → List UInt8))
  | [], _, _, count, _, mem => .ok (count, mem)
  | c :: rest, i, currI, count, curr, mem =>
    if i ≥ maxArgBytes then .error "splitted string shard's length exceeds capacity!\n"
    else if c = delimiter then
      let curr := update curr currI 0
      if count ≥ splittedCap then .error "splitted section's length exceeds capacity!\n"
      else
        match cstr curr bufBytes 0 with
        | none => .error "strcpy: overrun"
        | some word =>
          splitLoop delimiter splitted splittedCap len rest (i + 1) 0 (count + 1) curr
            (update mem (splitted count) word)
    else
      let curr := update curr currI c
      if currI + 1 = len then
        if count ≥ splittedCap then .error "splitted section's length exceeds capacity!\n"
        else
          match cstr curr bufBytes 0 with
          | none => .error "strcpy: overrun"
          | some word =>
            splitLoop delimiter splitted splittedCap len rest (i + 1) 0 (count + 1) curr
              (update mem (splitted count) word)
      else splitLoop delimiter splitted splittedCap len rest (i + 1) (currI + 1) count curr mem

/-- `split(s, delimiter, splitted, splitted_cap)`, where `curr` is what the uninitialised array
holds at first. -/
def split {β : Type} [DecidableEq β] (s : List UInt8) (delimiter : UInt8) (splitted : Nat → β)
    (splittedCap : Nat) (curr : Nat → UInt8) (mem : β → List UInt8) :
    Except String (Nat × (β → List UInt8)) :=
  splitLoop delimiter splitted splittedCap s.length s 0 0 0 curr mem

/-- `split` has returned the number of fields and stored every field in its place. -/
def SplitRight {β : Type} [DecidableEq β] (s : List UInt8) (delimiter : UInt8)
    (splitted : Nat → β) (splittedCap : Nat) (curr : Nat → UInt8) (mem : β → List UInt8) : Prop :=
  ∃ mem', split s delimiter splitted splittedCap curr mem =
      .ok ((s.splitOn delimiter).length, mem') ∧
    ∀ i (hi : i < (s.splitOn delimiter).length),
      mem' (splitted i) = (s.splitOn delimiter).get ⟨i, hi⟩

section Split

variable {β : Type} [DecidableEq β] {delimiter : UInt8} {splitted : Nat → β} {splittedCap : Nat}
  {s : List UInt8}

theorem length_splitOn (s : List UInt8) (d : UInt8) : (s.splitOn d).length = s.count d + 1 := by
  induction s with
  | nil => rfl
  | cons x s ih =>
    rw [splitOn_cons_eq_if_modifyHead, count_cons]
    split
    next => rw [length_cons, ih]
    next => rw [length_modifyHead, ih, Nat.add_zero]

/-- A string with a delimiter: no field is as long as the string, so only the fields in front
of a delimiter are counted. -/
theorem splitLoop_count {len : Nat} {rest : List UInt8} {i currI count n : Nat}
    {curr : Nat → UInt8} {mem mem' : β → List UInt8}
    (hshort : currI + rest.length < len ∨ currI + rest.length = len ∧ delimiter ∈ rest)
    (hloop : splitLoop delimiter splitted splittedCap len rest i currI count curr mem =
      .ok (n, mem')) : n = count + rest.count delimiter := by
  induction rest generalizing i currI count curr mem with
  | nil =>
    simp only [splitLoop, Except.ok.injEq, Prod.mk.injEq] at hloop
    rw [← hloop.1, count_nil, Nat.add_zero]
  | cons c rest ih =>
    rw [length_cons] at hshort
    simp only [splitLoop] at hloop
    split at hloop
    next => exact nomatch hloop
    next =>
      split at hloop
      next heq =>
        subst heq
        split at hloop
        next => exact nomatch hloop
        next =>
          split at hloop
          next => exact nomatch hloop
          next =>
            rw [ih (by omega) hloop, count_cons_self]
            omega
      next hne =>
        have hrest : currI + 1 + rest.length < len ∨
            currI + 1 + rest.length = len ∧ delimiter ∈ rest := by
          rcases hshort with hlt | ⟨heq, hmem⟩
          · omega
          · refine Or.inr ⟨by omega, ?_⟩
            exact (mem_cons.mp hmem).resolve_left fun h => hne h.symm
        have hfield : currI + 1 ≠ len := by
          rcases hrest with hlt | ⟨heq, hmem⟩
          · omega
          · have hpos := length_pos_of_mem hmem
            omega
        rw [if_neg hfield] at hloop
        rw [ih hrest hloop, count_cons_of_ne hne]

/-- The outcome of the last `strcpy` for a string of one word. -/
def copied (splitted : Nat → β) (mem : β → List UInt8) :
    Option (List UInt8) → Except String (Nat × (β → List UInt8))
  | none => .error "strcpy: overrun"
  | some word => .ok (1, update mem (splitted 0) word)

/-- A string without a delimiter is collected in `curr` and copied at its last byte. -/
theorem splitLoop_word {done rest : List UInt8} {curr : Nat → UInt8} {mem : β → List UInt8}
    (hrest : rest ≠ []) (hlen : (done ++ rest).length ≤ maxArgBytes)
    (hnone : delimiter ∉ rest) (hcap : 0 < splittedCap) (hdone : Holds curr 0 done) :
    ∃ curr', Holds curr' 0 (done ++ rest) ∧
      (∀ a, (done ++ rest).length ≤ a → curr' a = curr a) ∧
      splitLoop delimiter splitted splittedCap (done ++ rest).length rest done.length done.length 0
        curr mem = copied splitted mem (cstr curr' bufBytes 0) := by
  induction rest generalizing done curr with
  | nil => exact absurd rfl hrest
  | cons c rest ih =>
    obtain ⟨hc, hnone⟩ := not_or.mp (mt mem_cons.mpr hnone)
    have hnext : Holds (update curr done.length c) 0 (done ++ [c]) := by
      refine holds_append.mpr ⟨hdone.update (Or.inr (by omega)) c, ?_, trivial⟩
      rw [Nat.zero_add, update_self]
    have hlength : (done ++ c :: rest).length = done.length + (rest.length + 1) := by
      rw [length_append, length_cons]
    have hi : ¬done.length ≥ maxArgBytes := by omega
    simp only [splitLoop, if_neg hi, if_neg (Ne.symm hc)]
    cases rest with
    | nil =>
      refine ⟨update curr done.length c, hnext, fun a ha => ?_, ?_⟩
      · exact update_of_ne (by rw [hlength] at ha; omega) _ _
      · rw [if_pos (by rw [hlength]; rfl), if_neg (by omega)]
        cases cstr (update curr done.length c) bufBytes 0 with
        | none => rfl
        | some word => rfl
    | cons c' rest =>
      have hassoc : done ++ [c] ++ c' :: rest = done ++ c :: c' :: rest := by simp
      have hnextLen : (done ++ [c]).length = done.length + 1 := length_append
      obtain ⟨curr', hmem, hsame, hloop⟩ := ih (cons_ne_nil _ _) (by rwa [hassoc]) hnone hnext
      rw [hassoc] at hmem hsame hloop
      refine ⟨curr', hmem, fun a ha => ?_, ?_⟩
      · rw [hsame a ha]
        exact update_of_ne (by rw [hlength] at ha; omega) _ _
      · rw [length_cons] at hlength
        rw [if_neg (by omega), ← hloop, hnextLen]

/-- A word is copied together with what stands behind it in `curr`. -/
theorem split_word (splitted : Nat → β) (curr : Nat → UInt8) (mem : β → List UInt8) (hs : s ≠ [])
    (hlen : s.length < maxArgBytes) (hnul : 0 ∉ s) (hnone : delimiter ∉ s)
    (hcap : 0 < splittedCap) :
    ∃ word, split s delimiter splitted splittedCap curr mem = copied splitted mem word ∧
      (word = some s ↔ curr s.length = 0) := by
  obtain ⟨curr', hmem, hsame, hsplit⟩ := @splitLoop_word β _ delimiter splitted splittedCap [] s
    curr mem hs hlen.le hnone hcap trivial
  refine ⟨cstr curr' bufBytes 0, hsplit, ?_⟩
  rw [cstr_eq_iff hnul (by exact hlen) hmem, Nat.zero_add, hsame s.length le_rfl]

theorem copied_eq_ok {mem mem' : β → List UInt8} {word : Option (List UInt8)} {n : Nat}
    (hcopied : copied splitted mem word = .ok (n, mem')) :
    n = 1 ∧ word = some (mem' (splitted 0)) := by
  cases word with
  | none => exact nomatch hcopied
  | some word =>
    rw [copied, Except.ok.injEq, Prod.mk.injEq] at hcopied
    refine ⟨hcopied.1.symm, ?_⟩
    rw [← hcopied.2, update_self]

/-- A string of several words is cut into one field too few. -/
theorem split_count {curr : Nat → UInt8} {mem mem' : β → List UInt8} {n : Nat}
    (hmem : delimiter ∈ s) (hsplit : split s delimiter splitted splittedCap curr mem =
      .ok (n, mem')) : n + 1 = (s.splitOn delimiter).length := by
  rw [length_splitOn, splitLoop_count (Or.inr ⟨Nat.zero_add _, hmem⟩) hsplit, Nat.zero_add]

end Split

/-! ## The command that `xargs` builds -/

/-- What an entry of `argv` points to: an argument of `xargs` or the array `arg`, which is the
same one in every round of the loop that sets the entries. -/
inductive Ptr where
  | args (i : Nat)
  | arg
  deriving DecidableEq

/-- `' '`. -/
def space : UInt8 := 32

/-- `argv` before the first line is read. -/
def argv (argSize i : Nat) : Ptr := if i < argSize then .args i else .arg

/-- The strings of the arguments. -/
def strings (args : List (List UInt8)) (arg : List UInt8) : Ptr → List UInt8
  | .args i => args.getD i []
  | .arg => arg

/-- The arguments that the child passes to `exec` for a line.  It writes a null pointer behind
them, which has to be inside `argv`. -/
def execArgs (args : List (List UInt8)) (arg line : List UInt8) (curr : Nat → UInt8) :
    Except String (List (List UInt8)) :=
  let argSize := args.length
  match split line space (fun i => argv argSize (argSize + i)) (Exec.maxarg - argSize) curr
      (strings args arg) with
  | .error e => .error e
  | .ok (count, mem) =>
    if argSize + count < Exec.maxarg then
      .ok ((range (argSize + count)).map fun i => mem (argv argSize i))
    else .error "argv: overrun"

theorem argv_add (argSize i : Nat) : argv argSize (argSize + i) = .arg :=
  if_neg (by omega)

/-- The arguments of `xargs` come first. -/
theorem map_argv {args : List (List UInt8)} {mem : Ptr → List UInt8}
    (hargs : ∀ i, mem (.args i) = args.getD i []) (n : Nat) :
    (range (args.length + n)).map (fun i => mem (argv args.length i)) =
      args ++ replicate n (mem .arg) := by
  apply ext_getElem?
  intro i
  rw [getElem?_map, getElem?_append]
  by_cases hi : i < args.length
  · rw [if_pos hi, getElem?_range (by omega), Option.map_some, argv, if_pos hi, hargs,
      getD_eq_getElem?_getD, getElem?_eq_getElem hi]
    rfl
  · rw [if_neg hi, getElem?_replicate]
    by_cases hn : i < args.length + n
    · rw [getElem?_range hn, if_pos (by omega), Option.map_some, argv, if_neg hi]
    · rw [getElem?_eq_none (by rw [length_range]; omega), if_neg (by omega)]
      rfl

/-- For a line of one word the command is right if the word is. -/
theorem execArgs_iff {args : List (List UInt8)} {arg line : List UInt8} {curr : Nat → UInt8}
    (hs : line ≠ []) (hlen : line.length < maxArgBytes) (hnul : 0 ∉ line)
    (hcap : 0 < Exec.maxarg - args.length) :
    execArgs args arg line curr = .ok (args ++ line.splitOn space) ↔
      space ∉ line ∧ curr line.length = 0 ∧ args.length + 1 < Exec.maxarg := by
  unfold execArgs
  simp only [argv_add]
  constructor
  · intro hexec
    cases hsplit : split line space (fun _ => Ptr.arg) (Exec.maxarg - args.length) curr
        (strings args arg) with
    | error e =>
      rw [hsplit] at hexec
      exact nomatch hexec
    | ok result =>
      obtain ⟨count, mem⟩ := result
      rw [hsplit] at hexec
      simp only at hexec
      split at hexec
      next hroom =>
        have hlist := Except.ok.inj hexec
        have hcount : count = (line.splitOn space).length := by
          have hlengths := congrArg length hlist
          rw [length_map, length_range, length_append] at hlengths
          omega
        have hnone : space ∉ line := fun hmem => by
          have hfew := split_count hmem hsplit
          omega
        obtain ⟨word, hword, hiff⟩ := split_word (fun _ => Ptr.arg) curr
          (strings args arg) hs hlen hnul hnone hcap
        obtain ⟨rfl, hread⟩ := copied_eq_ok (hword.symm.trans hsplit)
        refine ⟨hnone, hiff.mp ?_, hroom⟩
        have hlast := congrArg (fun l => l[args.length]?) hlist
        simp only [splitOn_eq_singleton hnone, getElem?_map,
          getElem?_range (Nat.lt_succ_self args.length), Option.map_some,
          getElem?_concat_length] at hlast
        rw [hread, ← hlast, ← argv_add args.length 0, Nat.add_zero]
      next => exact nomatch hexec
  · rintro ⟨hnone, hzero, hroom⟩
    obtain ⟨word, hword, hiff⟩ := split_word (fun _ => Ptr.arg) curr (strings args arg)
      hs hlen hnul hnone hcap
    rw [hword, hiff.mpr hzero, splitOn_eq_singleton hnone]
    simp only [copied, if_pos hroom]
    rw [map_argv fun i => update_of_ne Ptr.noConfusion _ _, update_self]
    rfl

/-- `split` and the command that `xargs` builds with it are right exactly for a line without a
blank, if the uninitialised array `curr` holds a zero behind the place of the word and `argv`
has room for a null pointer. -/
theorem split_right_iff (s : List UInt8) (hs : s ≠ []) (hlen : s.length < maxArgBytes)
    (hnul : 0 ∉ s) :
    (∀ (β : Type) [DecidableEq β] (delimiter : UInt8) (splitted : Nat → β) (splittedCap : Nat)
      (curr : Nat → UInt8) (mem : β → List UInt8), (s.splitOn delimiter).length ≤ splittedCap →
      (SplitRight s delimiter splitted splittedCap curr mem ↔
        delimiter ∉ s ∧ curr s.length = 0)) ∧
    (∀ (args : List (List UInt8)) (arg : List UInt8) (curr : Nat → UInt8),
      (s.splitOn space).length ≤ Exec.maxarg - args.length →
      (execArgs args arg s curr = .ok (args ++ s.splitOn space) ↔
        space ∉ s ∧ curr s.length = 0 ∧ args.length + 1 < Exec.maxarg)) := by
  refine ⟨fun β _ delimiter splitted splittedCap curr mem hcap => ?_,
    fun args arg curr hcap => execArgs_iff hs hlen hnul ?_⟩
  · have hpos : 0 < splittedCap := by
      rw [length_splitOn] at hcap
      omega
    constructor
    · rintro ⟨mem', hsplit, hstored⟩
      have hnone : delimiter ∉ s := fun hmem => by
        have hfew := split_count hmem hsplit
        omega
      obtain ⟨word, hword, hiff⟩ := split_word splitted curr mem hs hlen hnul hnone hpos
      obtain ⟨-, hread⟩ := copied_eq_ok (hword.symm.trans hsplit)
      refine ⟨hnone, hiff.mp ?_⟩
      have hfirst := hstored 0 (by rw [length_splitOn]; omega)
      rw [hread, hfirst]
      simp [splitOn_eq_singleton hnone]
    · rintro ⟨hnone, hzero⟩
      obtain ⟨word, hword, hiff⟩ := split_word splitted curr mem hs hlen hnul hnone hpos
      rw [hiff.mpr hzero] at hword
      refine ⟨update mem (splitted 0) s, ?_, ?_⟩
      · rw [hword, splitOn_eq_singleton hnone]
        rfl
      · rw [splitOn_eq_singleton hnone]
        intro i hi
        obtain rfl : i = 0 := Nat.lt_one_iff.mp hi
        exact update_self ..
  · rw [length_splitOn] at hcap
    omega

/-- The line `"ab"` for `xargs echo`. -/
theorem split_right_iff_one_word :
    execArgs [[101, 99, 104, 111]] [] [97, 98] (fun _ => 0) =
      .ok [[101, 99, 104, 111], [97, 98]] :=
  ((split_right_iff [97, 98] (by decide) (by decide) (by decide)).2 [[101, 99, 104, 111]] []
    (fun _ => 0) (by decide)).mpr (by decide)

/-- The second word of the line `"a b"` is lost. -/
theorem split_loses_last_word :
    ¬SplitRight [97, 32, 98] space id Exec.maxarg (fun _ => 0) (fun _ => []) ∧
    execArgs [[101, 99, 104, 111]] [] [97, 32, 98] (fun _ => 0) =
      .ok [[101, 99, 104, 111], [97]] := by
  refine ⟨?_, rfl⟩
  rintro ⟨mem', hsplit, -⟩
  have hfew := split_count (by decide) hsplit
  omega

/-! ## `readline` and the loop of `xargs` -/

/-- `MAX_LINE_LEN`, the size that `xargs` passes to `readline`. -/
def maxLineLen : Nat := 1024

/-- `'\n'`. -/
def newline : UInt8 := 10

/-- `readline`: its result, the array and the rest of the input.  It fails if it writes outside
the array, which is shorter than it is told. -/
def readline (bufSize : Nat) : (input : List UInt8) → (i : Nat) → (buf : Nat → UInt8) →
    Option (Nat × (Nat → UInt8) × List UInt8)
  | [], i, buf => some (i, buf, [])
  | c :: rest, i, buf =>
    if i < bufSize then
      if i < bufBytes then
        if c ≠ newline then readline bufSize rest (i + 1) (update buf i c)
        else some (i, update buf i 0, rest)
      else none
    else some (bufSize + 1, buf, rest)

/-- What becomes of a child: it runs the command and exits, `exec` fails and the child goes on in
the loop of its parent, or `fork` has failed and there is none. -/
inductive Child where
  | ran (status : Int)
  | failed
  | missing
  deriving DecidableEq

/-- A process is in the loop; the first process has left it at the end of its input or after a
child has failed; a process has written or read outside its array. -/
inductive Mode where
  | reading
  | finished
  | exited
  | wild
  deriving DecidableEq

/-- The input, the variables `line` and `res` of the process that reads, the arrays of its
ancestors, which wait for it, and the strings that have been handed on to `split`. -/
structure State where
  input : List UInt8
  line : Nat → UInt8
  res : Int
  parents : List (Nat → UInt8)
  handed : List (List UInt8)
  mode : Mode

/-- One round of the loop.  A process that leaves the loop exits with status 0, and its parent
goes on; a process that sees status 1 exits with status 1, and so do its ancestors.  When `fork`
has failed, `wait` finds no child and leaves `res` as it is. -/
def step (s : State) (child : Child) : Option State :=
  if s.mode = .reading then
    match readline maxLineLen s.input 0 s.line with
    | none => some { s with mode := .wild }
    | some (readBytes, line, rest) =>
      if readBytes = 0 then
        match s.parents with
        | [] => some { s with input := rest, line := line, mode := .finished }
        | parent :: parents => some { s with
            input := rest, line := parent, res := 0, parents := parents }
      else if child = .missing then
        some { s with
          input := rest, line := line, mode := if s.res = 1 then .exited else .reading }
      else
        match cstr line bufBytes 0 with
        | none => some { s with mode := .wild }
        | some word =>
          match child with
          | .ran status => some { s with
              input := rest, line := line, res := status, handed := s.handed ++ [word],
              mode := if status = 1 then .exited else .reading }
          | _ => some { s with
              input := rest, line := line, parents := line :: s.parents,
              handed := s.handed ++ [word] }
  else none

/-- `xargs` begins, with anything in its variables. -/
def start (input : List UInt8) (line : Nat → UInt8) (res : Int) : State :=
  ⟨input, line, res, [], [], .reading⟩

/-- The lines of the input that are not empty; the last one may lack its newline. -/
def fullLines (input : List UInt8) : List (List UInt8) :=
  (input.splitOn newline).filter fun line => line ≠ []

/-- A round has handed on what it has read, and the loop does not end in front of the end of
the input. -/
structure Right (s s' : State) : Prop where
  tame : s'.mode ≠ .wild
  kept : s'.handed ++ fullLines s'.input = s.handed ++ fullLines s.input
  ended : s'.mode ≠ .reading → s'.input = []

/-- The line that is read next. -/
def firstLine (input : List UInt8) : List UInt8 := input.takeWhile fun c => c ≠ newline

/-- What follows it, with the newline in front. -/
def others (input : List UInt8) : List UInt8 := input.dropWhile fun c => c ≠ newline

/-- When a round is right: the line fits, there is a zero behind a last line without newline, an
empty line ends the input or only the loop of a child, so does a child that fails, and `fork`
succeeds. -/
structure Meets (s : State) (child : Child) : Prop where
  short : (firstLine s.input).length < bufBytes
  zero : s.input ≠ [] → others s.input = [] → s.line (firstLine s.input).length = 0
  full : firstLine s.input = [] → (others s.input).tail = [] ∨ s.parents ≠ []
  status : firstLine s.input ≠ [] → child = .ran 1 → (others s.input).tail = []
  forked : firstLine s.input ≠ [] → child ≠ .missing

section Lines

variable {l rest : List UInt8}

theorem ne_newline (hl : newline ∉ l) : ∀ x ∈ l, decide (x ≠ newline) = true := by
  intro x hx
  apply decide_eq_true
  rintro rfl
  exact hl hx

theorem firstLine_append (hl : newline ∉ l) : firstLine (l ++ newline :: rest) = l := by
  unfold firstLine
  rw [takeWhile_append_of_pos (ne_newline hl)]
  simp

theorem others_append (hl : newline ∉ l) : others (l ++ newline :: rest) = newline :: rest := by
  unfold others
  rw [dropWhile_append_of_pos (ne_newline hl)]
  simp

theorem firstLine_last (hl : newline ∉ l) : firstLine l = l := by
  unfold firstLine
  rw [← append_nil l, takeWhile_append_of_pos (by simpa using ne_newline hl)]
  rfl

theorem others_last (hl : newline ∉ l) : others l = [] := by
  unfold others
  rw [← append_nil l, dropWhile_append_of_pos (by simpa using ne_newline hl)]
  rfl

theorem fullLines_append (hl : newline ∉ l) :
    fullLines (l ++ newline :: rest) = (if l = [] then [] else [l]) ++ fullLines rest := by
  unfold fullLines
  rw [splitOn_append_cons_self_of_not_mem hl, filter_cons]
  by_cases hempty : l = []
  · simp [hempty]
  · simp [hempty]

theorem fullLines_last (hl : newline ∉ l) : fullLines l = if l = [] then [] else [l] := by
  unfold fullLines
  rw [splitOn_eq_singleton hl]
  by_cases hempty : l = []
  · simp [hempty]
  · simp [hempty]

variable {bufSize i : Nat} {buf : Nat → UInt8}

/-- A line with its newline is stored with a terminator. -/
theorem readline_line (hsize : bufBytes ≤ bufSize) (hl : newline ∉ l)
    (hlen : i + l.length < bufBytes) : readline bufSize (l ++ newline :: rest) i buf =
      some (i + l.length, update (store buf i l) (i + l.length) 0, rest) := by
  induction l generalizing i buf with
  | nil =>
    rw [length_nil, Nat.add_zero] at hlen
    simp [readline, store, hlen, hlen.trans_le hsize]
  | cons c l ih =>
    obtain ⟨hc, hl⟩ := not_or.mp (mt mem_cons.mpr hl)
    rw [length_cons] at hlen
    rw [cons_append, readline, if_pos (by omega), if_pos (by omega), if_pos (Ne.symm hc),
      ih hl (by omega), length_cons, store, Nat.add_right_comm, Nat.add_assoc]

/-- The last line is stored as it is. -/
theorem readline_last (hsize : bufBytes ≤ bufSize) (hl : newline ∉ l)
    (hlen : i + l.length ≤ bufBytes) : readline bufSize l i buf =
      some (i + l.length, store buf i l, []) := by
  induction l generalizing i buf with
  | nil => rfl
  | cons c l ih =>
    obtain ⟨hc, hl⟩ := not_or.mp (mt mem_cons.mpr hl)
    rw [length_cons] at hlen
    rw [readline, if_pos (by omega), if_pos (by omega), if_pos (Ne.symm hc),
      ih hl (by omega), length_cons, store, Nat.add_right_comm, Nat.add_assoc]

/-- A line that does not fit is written past the end of the array. -/
theorem readline_long (hsize : bufBytes < bufSize) (hl : newline ∉ l) (hi : i ≤ bufBytes)
    (hlen : bufBytes < i + (l ++ rest).length) (hlong : bufBytes ≤ i + l.length) :
    readline bufSize (l ++ rest) i buf = none := by
  induction l generalizing i buf with
  | nil =>
    rw [length_nil] at hlong
    rw [nil_append] at hlen ⊢
    cases rest with
    | nil =>
      rw [length_nil] at hlen
      omega
    | cons c rest => rw [readline, if_pos (by omega), if_neg (by omega)]
  | cons c l ih =>
    obtain ⟨hc, hl⟩ := not_or.mp (mt mem_cons.mpr hl)
    rw [cons_append, length_cons] at hlen
    rw [length_cons] at hlong
    rw [cons_append, readline, if_pos (by omega)]
    split
    next => rw [if_pos (Ne.symm hc), ih hl (by omega) (by omega) (by omega)]
    next => rfl

end Lines

section Rounds

variable {s : State} {child : Child} {l rest : List UInt8}

theorem bufBytes_lt : bufBytes < maxLineLen := by decide

/-- At the end of the input. -/
theorem round_nil (hmode : s.mode = .reading) (hinput : s.input = []) :
    ∃ s', step s child = some s' ∧ Right s s' := by
  have hread : readline maxLineLen s.input 0 s.line = some (0, s.line, []) := by
    rw [hinput]
    rfl
  simp only [step, if_pos hmode, hread, if_true]
  cases hparents : s.parents with
  | nil => exact ⟨_, rfl, Mode.noConfusion, by rw [hinput], fun _ => rfl⟩
  | cons parent parents =>
    exact ⟨_, rfl, by simp [hmode], by rw [hinput], fun hend => absurd hmode hend⟩

/-- An empty line. -/
theorem round_empty (hmode : s.mode = .reading) (hinput : s.input = newline :: rest) :
    (∃ s', step s child = some s' ∧ Right s s') ↔ rest = [] ∨ s.parents ≠ [] := by
  have hread : readline maxLineLen s.input 0 s.line =
      some (0, update s.line 0 0, rest) := by
    rw [hinput]
    exact readline_line (l := []) bufBytes_lt.le not_mem_nil (by decide)
  have hlines : fullLines s.input = fullLines rest := by
    rw [hinput]
    exact fullLines_append (l := []) not_mem_nil
  simp only [step, if_pos hmode, hread, if_true]
  cases hparents : s.parents with
  | nil =>
    constructor
    · rintro ⟨s', hstep, hright⟩
      cases hstep
      exact Or.inl (hright.ended Mode.noConfusion)
    · rintro (rfl | hne)
      · exact ⟨_, rfl, Mode.noConfusion, by rw [hlines], fun _ => rfl⟩
      · exact absurd rfl hne
  | cons parent parents =>
    constructor
    · intro _
      exact Or.inr (cons_ne_nil _ _)
    · intro _
      exact ⟨_, rfl, by simp [hmode], by rw [hlines], fun hend => absurd hmode hend⟩

/-- Without a child the line is lost. -/
theorem round_missing {line : Nat → UInt8} {n : Nat} (hmode : s.mode = .reading)
    (hread : readline maxLineLen s.input 0 s.line = some (n, line, rest)) (hn : n ≠ 0)
    (hlines : fullLines s.input = l :: fullLines rest) :
    ¬∃ s', step s .missing = some s' ∧ Right s s' := by
  rintro ⟨s', hstep, hright⟩
  simp only [step, if_pos hmode, hread, if_neg hn, if_true] at hstep
  cases hstep
  have hkept := append_cancel_left hright.kept
  rw [hlines] at hkept
  exact cons_ne_self _ _ hkept.symm

/-- A string is handed on. -/
theorem round_word {line : Nat → UInt8} {n : Nat} {word : List UInt8} (hmode : s.mode = .reading)
    (hread : readline maxLineLen s.input 0 s.line = some (n, line, rest)) (hn : n ≠ 0)
    (hword : cstr line bufBytes 0 = some word) (hlines : fullLines s.input = l :: fullLines rest) :
    (∃ s', step s child = some s' ∧ Right s s') ↔
      word = l ∧ (child = .ran 1 → rest = []) ∧ child ≠ .missing := by
  have hkept : s.handed ++ [word] ++ fullLines rest = s.handed ++ fullLines s.input ↔
      word = l := by
    rw [hlines]
    simp
  cases child with
  | missing => exact iff_of_false (round_missing hmode hread hn hlines) fun h => h.2.2 rfl
  | ran status =>
    simp only [step, if_pos hmode, hread, if_neg hn, hword, reduceCtorEq, if_false]
    constructor
    · rintro ⟨s', hstep, hright⟩
      cases hstep
      refine ⟨hkept.mp hright.kept, fun hstatus => hright.ended ?_, Child.noConfusion⟩
      obtain rfl := Child.ran.inj hstatus
      exact Mode.noConfusion
    · rintro ⟨rfl, hstatus, -⟩
      refine ⟨_, rfl, ?_, hkept.mpr rfl, fun hend => ?_⟩
      · simp only
        split
        next => exact Mode.noConfusion
        next => exact Mode.noConfusion
      · simp only at hend
        split at hend
        next hone => exact hstatus (by rw [hone])
        next => exact absurd rfl hend
  | failed =>
    simp only [step, if_pos hmode, hread, if_neg hn, hword, reduceCtorEq, if_false]
    constructor
    · rintro ⟨s', hstep, hright⟩
      cases hstep
      exact ⟨hkept.mp hright.kept, nofun, nofun⟩
    · rintro ⟨rfl, -⟩
      exact ⟨_, rfl, by simp [hmode], hkept.mpr rfl, fun hend => absurd hmode hend⟩

/-- A write or a read outside the array. -/
theorem round_wild (hstep : step s child = some { s with mode := .wild }) :
    ¬∃ s', step s child = some s' ∧ Right s s' := by
  rintro ⟨s', hstep', hright⟩
  rw [hstep] at hstep'
  cases hstep'
  exact hright.tame rfl

/-- A line with its newline. -/
theorem round_line_iff (hmode : s.mode = .reading) (hnul : 0 ∉ l) (hl : newline ∉ l)
    (hinput : s.input = l ++ newline :: rest) :
    (∃ s', step s child = some s' ∧ Right s s') ↔ Meets s child := by
  have hfirst : firstLine s.input = l := by rw [hinput, firstLine_append hl]
  have hothers : others s.input = newline :: rest := by rw [hinput, others_append hl]
  have hmeets : Meets s child ↔ l.length < bufBytes ∧ (l = [] → rest = [] ∨ s.parents ≠ []) ∧
      (l ≠ [] → (child = .ran 1 → rest = []) ∧ child ≠ .missing) := by
    constructor
    · rintro ⟨hshort, -, hfull, hstatus, hforked⟩
      rw [hfirst] at hshort hfull hstatus hforked
      rw [hothers] at hfull hstatus
      exact ⟨hshort, hfull, fun hne => ⟨hstatus hne, hforked hne⟩⟩
    · rintro ⟨hshort, hfull, hchild⟩
      refine ⟨by rwa [hfirst], fun _ hnone => ?_, ?_, ?_, ?_⟩
      · rw [hothers] at hnone
        exact nomatch hnone
      · rwa [hfirst, hothers]
      · rw [hfirst, hothers]
        exact fun hne => (hchild hne).1
      · rw [hfirst]
        exact fun hne => (hchild hne).2
  rw [hmeets]
  by_cases hshort : l.length < bufBytes
  · by_cases hempty : l = []
    · subst hempty
      have hpos : 0 < bufBytes := by decide
      rw [round_empty hmode hinput]
      simp [hpos]
    · have hread : readline maxLineLen s.input 0 s.line =
          some (0 + l.length, update (store s.line 0 l) (0 + l.length) 0, rest) := by
        rw [hinput]
        exact readline_line bufBytes_lt.le hl (by rwa [Nat.zero_add])
      have hword : cstr (update (store s.line 0 l) (0 + l.length) 0) bufBytes 0 = some l := by
        refine cstr_of_holds hnul hshort (holds_append.mpr ⟨?_, update_self .., trivial⟩)
        exact holds_store.update (Or.inr le_rfl) 0
      have hlines : fullLines s.input = l :: fullLines rest := by
        rw [hinput, fullLines_append hl, if_neg hempty]
        rfl
      have hne : 0 + l.length ≠ 0 := by
        rw [Nat.zero_add]
        exact length_pos_iff.mpr hempty |>.ne'
      rw [round_word hmode hread hne hword hlines]
      simp [hshort, hempty]
  · have hread : readline maxLineLen s.input 0 s.line = none := by
      rw [hinput]
      refine readline_long bufBytes_lt hl (Nat.zero_le _) ?_ (by omega)
      rw [length_append, length_cons]
      omega
    refine iff_of_false (round_wild ?_) fun h => hshort h.1
    simp only [step, if_pos hmode, hread]

/-- A last line without newline. -/
theorem round_last_iff (hmode : s.mode = .reading) (hnul : 0 ∉ s.input)
    (hl : newline ∉ s.input) :
    (∃ s', step s child = some s' ∧ Right s s') ↔ Meets s child := by
  have hfirst : firstLine s.input = s.input := firstLine_last hl
  have hothers : others s.input = [] := others_last hl
  have hmeets : Meets s child ↔ s.input.length < bufBytes ∧
      (s.input ≠ [] → s.line s.input.length = 0 ∧ child ≠ .missing) := by
    constructor
    · rintro ⟨hshort, hzero, -, -, hforked⟩
      rw [hfirst] at hshort hzero hforked
      exact ⟨hshort, fun hne => ⟨hzero hne hothers, hforked hne⟩⟩
    · rintro ⟨hshort, hzero⟩
      refine ⟨by rwa [hfirst], fun hne _ => by rw [hfirst]; exact (hzero hne).1, ?_, ?_, ?_⟩
      · rw [hothers]
        exact fun _ => Or.inl rfl
      · rw [hothers]
        exact fun _ _ => rfl
      · rw [hfirst]
        exact fun hne => (hzero hne).2
  rw [hmeets]
  by_cases hempty : s.input = []
  · refine iff_of_true (round_nil hmode hempty) ⟨?_, fun hne => absurd hempty hne⟩
    rw [hempty]
    decide
  by_cases hlong : bufBytes < s.input.length
  · have hread : readline maxLineLen s.input 0 s.line = none := by
      rw [← append_nil s.input]
      refine readline_long bufBytes_lt hl (Nat.zero_le _) ?_ (by omega)
      rw [append_nil]
      omega
    refine iff_of_false (round_wild ?_) fun h => by omega
    simp only [step, if_pos hmode, hread]
  have hread : readline maxLineLen s.input 0 s.line =
      some (0 + s.input.length, store s.line 0 s.input, []) :=
    readline_last bufBytes_lt.le hl (by omega)
  have hne : 0 + s.input.length ≠ 0 := by
    rw [Nat.zero_add]
    exact length_pos_iff.mpr hempty |>.ne'
  have hstored : Holds (store s.line 0 s.input) 0 s.input := holds_store
  have hlines : fullLines s.input = s.input :: fullLines [] := by
    rw [fullLines_last hl, if_neg hempty]
    rfl
  by_cases hchild : child = .missing
  · rw [hchild]
    exact iff_of_false (round_missing hmode hread hne hlines) fun h => (h.2 hempty).2 rfl
  by_cases hfull : s.input.length = bufBytes
  · have hword : cstr (store s.line 0 s.input) bufBytes 0 = none := by
      rw [← hfull, ← Nat.add_zero s.input.length, cstr_skip hnul hstored]
      rfl
    refine iff_of_false (round_wild ?_) fun h => by omega
    simp only [step, if_pos hmode, hread, if_neg hne, if_neg hchild, hword]
  have hshort : s.input.length < bufBytes := by omega
  have hread0 : cstr (store s.line 0 s.input) bufBytes 0 = some s.input ↔
      s.line s.input.length = 0 := by
    rw [cstr_eq_iff hnul hshort hstored, store_of_ge le_rfl, Nat.zero_add]
  cases hword : cstr (store s.line 0 s.input) bufBytes 0 with
  | none =>
    refine iff_of_false (round_wild ?_) fun h => ?_
    · simp only [step, if_pos hmode, hread, if_neg hne, if_neg hchild, hword]
    · rw [hread0.mpr (h.2 hempty).1] at hword
      exact nomatch hword
  | some word =>
    rw [round_word hmode hread hne hword hlines, ← hread0, hword]
    simp [hshort, hempty, hchild]

/-- A round hands on what it reads exactly if it meets the conditions. -/
theorem round_iff (hmode : s.mode = .reading) (hnul : 0 ∉ s.input) :
    (∃ s', step s child = some s' ∧ Right s s') ↔ Meets s child := by
  by_cases hmem : newline ∈ s.input
  · obtain ⟨l, rest, hinput, hl⟩ := eq_append_cons_of_mem hmem
    refine round_line_iff hmode (fun h0 => hnul ?_) hl hinput
    rw [hinput]
    exact mem_append_left _ h0
  · exact round_last_iff hmode hnul hmem

/-! ## Runs -/

/-- What `readline` leaves is the end of what follows the first byte. -/
theorem readline_suffix {bufSize i n : Nat} {c : UInt8} {input rest : List UInt8}
    {buf line : Nat → UInt8}
    (hread : readline bufSize (c :: input) i buf = some (n, line, rest)) : rest <:+ input := by
  induction input generalizing c i buf with
  | nil =>
    simp only [readline] at hread
    split_ifs at hread
    · obtain ⟨-, -, rfl⟩ : _ ∧ _ ∧ [] = rest := by simpa using hread
      exact suffix_rfl
    · obtain ⟨-, -, rfl⟩ : _ ∧ _ ∧ [] = rest := by simpa using hread
      exact suffix_rfl
    · obtain ⟨-, -, rfl⟩ : _ ∧ _ ∧ [] = rest := by simpa using hread
      exact suffix_rfl
  | cons c' input ih =>
    rw [readline] at hread
    split_ifs at hread
    · exact (ih hread).trans (suffix_cons _ _)
    · obtain ⟨-, -, rfl⟩ : _ ∧ _ ∧ c' :: input = rest := by simpa using hread
      exact suffix_rfl
    · obtain ⟨-, -, rfl⟩ : _ ∧ _ ∧ c' :: input = rest := by simpa using hread
      exact suffix_rfl

theorem readline_rest {n : Nat} {line : Nat → UInt8}
    (hread : readline maxLineLen s.input 0 s.line = some (n, line, rest)) :
    rest <:+ s.input ∧ (n ≠ 0 → rest.length < s.input.length) := by
  cases hinput : s.input with
  | nil =>
    rw [hinput, readline] at hread
    obtain ⟨rfl, -, rfl⟩ : 0 = n ∧ _ ∧ [] = rest := by simpa using hread
    exact ⟨suffix_rfl, fun h => absurd rfl h⟩
  | cons c input =>
    rw [hinput] at hread
    have hsuffix := readline_suffix hread
    refine ⟨hsuffix.trans (suffix_cons _ _), fun _ => ?_⟩
    have hle := hsuffix.length_le
    rw [length_cons]
    omega

/-- How much is left to do: the input, and leaving the loop in every process. -/
def State.todo (s : State) : Nat :=
  2 * s.input.length + s.parents.length + if s.mode = .reading then 1 else 0

/-- Every round reads on and brings the processes closer to their end. -/
theorem step_progress (child : Child) (hmode : s.mode = .reading) :
    ∃ s', step s child = some s' ∧ s'.input <:+ s.input ∧ s'.todo < s.todo := by
  unfold State.todo
  simp only [step, if_pos hmode]
  cases hread : readline maxLineLen s.input 0 s.line with
  | none => exact ⟨_, rfl, suffix_rfl, by simp⟩
  | some result =>
    obtain ⟨n, line, rest⟩ := result
    obtain ⟨hsuffix, hshorter⟩ := readline_rest hread
    have hle := hsuffix.length_le
    simp only
    split
    next =>
      cases hparents : s.parents with
      | nil =>
        refine ⟨_, rfl, hsuffix, ?_⟩
        simp
        omega
      | cons parent parents =>
        refine ⟨_, rfl, hsuffix, ?_⟩
        simp only [length_cons, if_pos hmode]
        omega
    next hn =>
      have hlt := hshorter hn
      by_cases hchild : child = .missing
      · rw [if_pos hchild]
        refine ⟨_, rfl, hsuffix, ?_⟩
        simp only
        split_ifs <;> omega
      rw [if_neg hchild]
      cases hword : cstr line bufBytes 0 with
      | none => exact ⟨_, rfl, suffix_rfl, by simp⟩
      | some word =>
        cases child with
        | missing => exact absurd rfl hchild
        | ran status =>
          refine ⟨_, rfl, hsuffix, ?_⟩
          simp only
          split_ifs <;> omega
        | failed =>
          refine ⟨_, rfl, hsuffix, ?_⟩
          simp only [length_cons, if_pos hmode]
          omega

end Rounds

/-- Whether a round meets the conditions can be evaluated. -/
instance (s : State) (child : Child) : Decidable (Meets s child) :=
  decidable_of_iff ((firstLine s.input).length < bufBytes ∧
      (s.input ≠ [] → others s.input = [] → s.line (firstLine s.input).length = 0) ∧
      (firstLine s.input = [] → (others s.input).tail = [] ∨ s.parents ≠ []) ∧
      (firstLine s.input ≠ [] → child = .ran 1 → (others s.input).tail = []) ∧
      (firstLine s.input ≠ [] → child ≠ .missing))
    ⟨fun ⟨hshort, hzero, hfull, hstatus, hforked⟩ => ⟨hshort, hzero, hfull, hstatus, hforked⟩,
      fun h => ⟨h.short, h.zero, h.full, h.status, h.forked⟩⟩

end Xargs
end Xv6
