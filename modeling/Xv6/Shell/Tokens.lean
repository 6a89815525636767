import Mathlib.Data.List.TakeWhile
import Mathlib.Tactic
import Xv6.Shell.Parser

/-!
# Lines as lists of tokens

What the parser does with a line only depends on its tokens: the symbols, and the maximal runs
of bytes that are neither white space nor symbols.  Two lexers that agree on what `peek` and
`gettoken` return lead the parser to the same result.

Main results:

- Theorem {lit}`Lexer.Sim.parseline`: the parser on two lexers that agree.
- Theorem {lit}`sim_line`: the lexer on a line agrees with the list of its tokens.
- Theorem {lit}`maximal_of_mem_lex`: the words are maximal runs.
-/

namespace Xv6
namespace Shell

/-! ## Lexers that agree -/

section Sim

variable {σ τ α β : Type}

/-- Two lexers give the same answers at cursors that are related. -/
structure Lexer.Sim (L : Lexer σ) (M : Lexer τ) (R : σ → τ → Prop) : Prop where
  peek : ∀ {s t} (toks : List UInt8), (∀ c ∈ toks, isSymbol c = true) → R s t →
    (L.peek s toks).1 = (M.peek t toks).1 ∧ R (L.peek s toks).2 (M.peek t toks).2
  gettoken : ∀ {s t}, R s t → (L.gettoken s).1 = (M.gettoken t).1 ∧
    ((M.gettoken t).1 = 97 → (L.gettoken s).2.1 = (M.gettoken t).2.1) ∧
    R (L.gettoken s).2.2 (M.gettoken t).2.2

/-- The same result, or the same panic. -/
def Agree (R : σ → τ → Prop) : Parsed σ α → Parsed τ α → Prop
  | .error e, .error e' => e = e'
  | .ok (a, s), .ok (b, t) => a = b ∧ R s t
  | _, _ => False

variable {R : σ → τ → Prop} {L : Lexer σ} {M : Lexer τ} {s : σ} {t : τ}

/-- Going on after results that agree. -/
theorem Agree.andThen {r : Parsed σ α} {r' : Parsed τ α} {f : α → σ → Parsed σ β}
    {f' : α → τ → Parsed τ β} (h : Agree R r r') (hf : ∀ a s t, R s t → Agree R (f a s) (f' a t)) :
    Agree R (r.andThen f) (r'.andThen f') := by
  match r, r', h with
  | .error _, .error _, h => exact h
  | .ok (a, s), .ok (b, t), h =>
    obtain ⟨rfl, hR⟩ := h
    exact hf a s t hR

namespace Lexer.Sim

/-- Both sides take the same branch after a `peek`. -/
theorem branch (h : Sim L M R) (toks : List UInt8) (hsym : ∀ c ∈ toks, isSymbol c = true)
    (hR : R s t) {yes no : Parsed σ α} {yes' no' : Parsed τ α}
    (hyes : R (L.peek s toks).2 (M.peek t toks).2 → Agree R yes yes')
    (hno : R (L.peek s toks).2 (M.peek t toks).2 → Agree R no no') :
    Agree R (if (L.peek s toks).1 then yes else no) (if (M.peek t toks).1 then yes' else no') := by
  obtain ⟨hsame, hR'⟩ := h.peek toks hsym hR
  rw [hsame]
  split
  next => exact hyes hR'
  next => exact hno hR'

/-- The two lexers agree in `parseredirs`. -/
theorem parseredirs (h : Sim L M R) (fuel : Nat) (rs : List Redir) (hR : R s t) :
    Agree R (parseredirs L fuel rs s) (parseredirs M fuel rs t) := by
  induction fuel generalizing rs s t with
  | zero => rfl
  | succ fuel ih =>
    refine h.branch _ (List.all_eq_true.mp (by decide)) hR (fun hR => ?_) fun hR => ⟨rfl, hR⟩
    obtain ⟨hop, -, hR⟩ := h.gettoken hR
    obtain ⟨hfile, htok, hR⟩ := h.gettoken hR
    rw [hop, hfile]
    split
    next => rfl
    next hword =>
      rw [htok (not_not.mp hword)]
      exact ih _ hR

/-- ... in the loop of `parseexec`. -/
theorem parseargs (h : Sim L M R) (rounds fuel : Nat) (argv : List Tok) (rs : List Redir)
    (hR : R s t) :
    Agree R (parseargs L rounds fuel argv rs s) (parseargs M rounds fuel argv rs t) := by
  induction fuel generalizing argv rs s t with
  | zero => rfl
  | succ fuel ih =>
    refine h.branch _ (List.all_eq_true.mp (by decide)) hR (fun hR => ⟨rfl, hR⟩) fun hR => ?_
    obtain ⟨hword, htok, hR⟩ := h.gettoken hR
    rw [hword]
    split
    next => exact ⟨rfl, hR⟩
    next =>
      split
      next => rfl
      next hisWord =>
        rw [htok (not_not.mp hisWord)]
        split
        next => rfl
        next => exact (h.parseredirs rounds rs hR).andThen fun rs s t hR => ih _ rs hR

variable {line : σ → Parsed σ Cmd} {line' : τ → Parsed τ Cmd}

/-- ... in `parseblock`. -/
theorem parseblock (h : Sim L M R) (rounds : Nat)
    (hline : ∀ s t, R s t → Agree R (line s) (line' t)) (hR : R s t) :
    Agree R (parseblock L rounds line s) (parseblock M rounds line' t) := by
  refine h.branch _ (List.all_eq_true.mp (by decide)) hR (fun hR => ?_) fun _ => rfl
  refine (hline _ _ (h.gettoken hR).2.2).andThen fun cmd s t hR => ?_
  refine h.branch _ (List.all_eq_true.mp (by decide)) hR (fun hR => ?_) fun _ => rfl
  exact (h.parseredirs rounds [] (h.gettoken hR).2.2).andThen fun rs s t hR => ⟨rfl, hR⟩

/-- ... in `parseexec`. -/
theorem parseexec (h : Sim L M R) (rounds : Nat)
    (hline : ∀ s t, R s t → Agree R (line s) (line' t)) (hR : R s t) :
    Agree R (parseexec L rounds line s) (parseexec M rounds line' t) := by
  refine h.branch _ (List.all_eq_true.mp (by decide)) hR
    (fun hR => h.parseblock rounds hline hR) fun hR => ?_
  refine (h.parseredirs rounds [] hR).andThen fun rs s t hR => ?_
  exact (h.parseargs rounds rounds [] rs hR).andThen fun args s t hR => ⟨rfl, hR⟩

/-- ... in `parsepipe`. -/
theorem parsepipe (h : Sim L M R) (rounds fuel : Nat)
    (hline : ∀ s t, R s t → Agree R (line s) (line' t)) (hR : R s t) :
    Agree R (parsepipe L rounds line fuel s) (parsepipe M rounds line' fuel t) := by
  induction fuel generalizing s t with
  | zero => rfl
  | succ fuel ih =>
    refine (h.parseexec rounds hline hR).andThen fun cmd s t hR => ?_
    refine h.branch _ (List.all_eq_true.mp (by decide)) hR (fun hR => ?_) fun hR => ⟨rfl, hR⟩
    exact (ih (h.gettoken hR).2.2).andThen fun right s t hR => ⟨rfl, hR⟩

/-- ... in the loop of `parseline`. -/
theorem parseback (h : Sim L M R) (fuel : Nat) (cmd : Cmd) (hR : R s t) :
    Agree R (parseback L fuel cmd s) (parseback M fuel cmd t) := by
  induction fuel generalizing cmd s t with
  | zero => rfl
  | succ fuel ih =>
    exact h.branch _ (List.all_eq_true.mp (by decide)) hR
      (fun hR => ih _ (h.gettoken hR).2.2) fun hR => ⟨rfl, hR⟩

/-- ... in `parseline`. -/
theorem parseline (h : Sim L M R) (rounds fuel : Nat) (hR : R s t) :
    Agree R (parseline L rounds fuel s) (parseline M rounds fuel t) := by
  induction fuel generalizing s t with
  | zero => rfl
  | succ fuel ih =>
    refine (h.parsepipe rounds rounds (fun s t hR => ih hR) hR).andThen fun cmd s t hR => ?_
    refine (h.parseback rounds cmd hR).andThen fun cmd s t hR => ?_
    refine h.branch _ (List.all_eq_true.mp (by decide)) hR (fun hR => ?_) fun hR => ⟨rfl, hR⟩
    exact (ih (h.gettoken hR).2.2).andThen fun right s t hR => ⟨rfl, hR⟩

end Lexer.Sim

end Sim

/-! ## Tokens -/

/-- A symbol or a word. -/
inductive Token where
  | lt
  | bar
  | gt
  | amp
  | semi
  | lpar
  | rpar
  | append
  | word (t : Tok)
  deriving DecidableEq

/-- What `gettoken` returns for a token. -/
def Token.code : Token → UInt8
  | .lt => 60
  | .bar => 124
  | .gt => 62
  | .amp => 38
  | .semi => 59
  | .lpar => 40
  | .rpar => 41
  | .append => 43
  | .word _ => 97

/-- The symbol that `peek` sees; it does not see words. -/
def Token.symbol : Token → UInt8
  | .append => 62
  | t => t.code

def Token.tok : Token → Tok
  | .word t => t
  | _ => ⟨0, 0⟩

/-- The token for a symbol. -/
def Token.ofSymbol (c : UInt8) : Token :=
  if c = 60 then .lt
  else if c = 124 then .bar
  else if c = 62 then .gt
  else if c = 38 then .amp
  else if c = 59 then .semi
  else if c = 40 then .lpar
  else .rpar

/-- The tokens of a part of a line that begins at `pos`. -/
def lex (pos : Nat) : List UInt8 → List Token
  | [] => []
  | c :: rest =>
    if isSpace c then lex (pos + 1) rest
    else if isSymbol c then
      if c = 62 ∧ rest.head? = some 62 then .append :: lex (pos + 2) rest.tail
      else .ofSymbol c :: lex (pos + 1) rest
    else
      .word ⟨pos, pos + 1 + (rest.takeWhile isWord).length⟩ ::
        lex (pos + 1 + (rest.takeWhile isWord).length) (rest.dropWhile isWord)
termination_by bytes => bytes.length
decreasing_by
  · exact Nat.lt_succ_self _
  · rw [List.length_tail, List.length_cons]
    omega
  · exact Nat.lt_succ_self _
  · have hle := (List.dropWhile_sublist (p := isWord) (l := rest)).length_le
    rw [List.length_cons]
    omega

/-- The tokens of a line. -/
def tokens (line : List UInt8) : List Token := lex 0 line

/-- The lexer on a list of tokens. -/
def Lexer.ofTokens : Lexer (List Token) where
  peek ts toks := ((ts.head?.map fun t => toks.contains t.symbol).getD false, ts)
  gettoken ts := ((ts.head?.map Token.code).getD 0, (ts.head?.map Token.tok).getD ⟨0, 0⟩, ts.tail)

/-! ## The lexer on a line finds its tokens -/

section Line

variable {line rest : List UInt8} {s q : Nat} {c : UInt8}

/-- What is left after a skip. -/
theorem drop_skip (p : UInt8 → Bool) (line : List UInt8) (s : Nat) :
    line.drop (skip p line s) = (line.drop s).dropWhile p := by
  have hrest : ((line.drop s).takeWhile p ++ (line.drop s).dropWhile p).drop
      ((line.drop s).takeWhile p).length = (line.drop s).dropWhile p := List.drop_left
  rw [List.takeWhile_append_dropWhile] at hrest
  rw [skip, ← List.drop_drop, hrest]

/-- A skip stays in the line. -/
theorem skip_le (p : UInt8 → Bool) (hs : s ≤ line.length) : skip p line s ≤ line.length := by
  have hle := (List.takeWhile_sublist (l := line.drop s) p).length_le
  rw [List.length_drop] at hle
  unfold skip
  omega

/-- The next byte. -/
theorem byteAt_eq (line : List UInt8) (s : Nat) : byteAt line s = (line.drop s).headD 0 := by
  rw [byteAt, List.getD_eq_getElem?_getD, List.headD_eq_head?_getD, List.head?_drop]

@[simp] theorem lex_nil (pos : Nat) : lex pos [] = [] := by rw [lex]

/-- White space does not matter. -/
theorem lex_skip (line : List UInt8) (s : Nat) :
    lex (skip isSpace line s) (line.drop (skip isSpace line s)) = lex s (line.drop s) := by
  rw [drop_skip, skip]
  generalize line.drop s = bytes
  induction bytes generalizing s with
  | nil => rfl
  | cons c bytes ih =>
    by_cases hc : isSpace c = true
    · rw [List.takeWhile_cons_of_pos hc, List.dropWhile_cons_of_pos hc, lex, if_pos hc, ← ih,
        List.length_cons, Nat.add_right_comm, Nat.add_assoc]
    · rw [List.takeWhile_cons_of_neg hc, List.dropWhile_cons_of_neg hc]
      rfl

/-- A symbol is its own code. -/
theorem code_ofSymbol (hc : isSymbol c = true) :
    (Token.ofSymbol c).code = c ∧ (Token.ofSymbol c).symbol = c := by
  simp only [isSymbol, List.mem_cons, List.not_mem_nil, or_false, decide_eq_true_eq] at hc
  rcases hc with rfl | rfl | rfl | rfl | rfl | rfl | rfl <;> decide

/-- The token that `scan` finds, and where it ends. -/
structure Found (line : List UInt8) (q : Nat) (token : Token) : Prop where
  le : (scan line q).2 ≤ line.length
  lex : lex q (line.drop q) = token :: lex (scan line q).2 (line.drop (scan line q).2)
  code : (scan line q).1 = token.code
  tok : token.code = 97 → token = .word ⟨q, (scan line q).2⟩
  symbol : ∀ toks : List UInt8, (∀ c ∈ toks, isSymbol c = true) →
    (byteAt line q ≠ 0 && toks.contains (byteAt line q)) = toks.contains token.symbol

/-- Symbols are not letters of words. -/
theorem contains_eq_false {toks : List UInt8} (htoks : ∀ c ∈ toks, isSymbol c = true)
    (hc : isSymbol c = false) : toks.contains c = false := by
  rw [← Bool.not_eq_true, List.contains_iff_mem]
  intro hmem
  rw [htoks c hmem] at hc
  exact Bool.noConfusion hc

/-- A token begins at every byte that is not a space. -/
theorem found_of_drop (hnul : 0 ∉ line) (hdrop : line.drop q = c :: rest)
    (hc : isSpace c = false) : ∃ token, Found line q token := by
  have hlen : line.length = q + 1 + rest.length := by
    have hlength := congrArg List.length hdrop
    rw [List.length_drop, List.length_cons] at hlength
    omega
  have hbyte : byteAt line q = c := by rw [byteAt_eq, hdrop]; rfl
  have hmem : c ∈ line := List.mem_of_mem_drop (hdrop ▸ List.mem_cons_self)
  have hne : c ≠ 0 := fun h0 => hnul (h0 ▸ hmem)
  have hrest : line.drop (q + 1) = rest := by rw [← List.drop_drop, hdrop]; rfl
  have hnext : byteAt line (q + 1) = rest.headD 0 := by rw [byteAt_eq, hrest]
  by_cases hsym : isSymbol c = true
  · obtain rfl | hgt := eq_or_ne c 62
    · by_cases happend : rest.head? = some 62
      · obtain ⟨rest', hrest'⟩ : ∃ rest', rest = 62 :: rest' := by
          cases rest with
          | nil => exact nomatch happend
          | cons d rest' => exact ⟨rest', by rw [Option.some.inj happend]⟩
        have hscan : scan line q = (43, q + 2) := by
          simp only [scan, hbyte, hnext, hrest']
          rfl
        have hdrop2 : line.drop (q + 2) = rest' := by
          rw [← Nat.add_assoc q 1 1, ← List.drop_drop, hrest, hrest']
          rfl
        refine ⟨.append, ?_, ?_, ?_, fun h => absurd h (by decide), fun toks _ => ?_⟩
        · rw [hscan, hlen, hrest', List.length_cons]
          omega
        · rw [hscan, hdrop, lex, if_neg (by decide), if_pos hsym, if_pos ⟨rfl, happend⟩, hdrop2,
            hrest']
          rfl
        · rw [hscan]
          rfl
        · rw [hbyte]
          rfl
      · have hsingle : rest.headD 0 ≠ 62 := by
          cases rest with
          | nil => decide
          | cons d rest' => exact fun h => happend (congrArg some h)
        have hscan : scan line q = (62, q + 1) := by
          simp only [scan, hbyte, hnext]
          rw [if_neg (by decide), if_neg (by decide), if_pos trivial, if_neg hsingle]
        refine ⟨.gt, ?_, ?_, ?_, fun h => absurd h (by decide), fun toks _ => ?_⟩
        · rw [hscan, hlen]
          omega
        · rw [hscan, hdrop, lex, if_neg (by decide), if_pos hsym,
            if_neg fun h => happend h.2, hrest]
          rfl
        · rw [hscan]
          rfl
        · rw [hbyte]
          rfl
    · have hin : c ∈ [124, 40, 41, 59, 38, 60] := by
        simp only [isSymbol, List.mem_cons, List.not_mem_nil, or_false, decide_eq_true_eq] at hsym ⊢
        tauto
      have hscan : scan line q = (c, q + 1) := by
        simp only [scan, hbyte]
        rw [if_neg hne, if_pos hin]
      obtain ⟨hcode, hsymbol⟩ := code_ofSymbol hsym
      refine ⟨.ofSymbol c, ?_, ?_, ?_, fun h => ?_, fun toks _ => ?_⟩
      · rw [hscan, hlen]
        omega
      · rw [hscan, hdrop, lex, if_neg (by rw [hc]; decide), if_pos hsym,
          if_neg fun h => hgt h.1, hrest]
      · rw [hscan, hcode]
      · rw [hcode] at h
        subst h
        exact absurd hsym (by decide)
      · rw [hbyte, hsymbol]
        simp [hne]
  · have hword : isWord c = true := by
      simp only [isWord, hc, Bool.eq_false_iff.mpr hsym]
      rfl
    have hend : skip isWord line q = q + 1 + (rest.takeWhile isWord).length := by
      rw [skip, hdrop, List.takeWhile_cons_of_pos hword, List.length_cons]
      omega
    have hscan : scan line q = (97, q + 1 + (rest.takeWhile isWord).length) := by
      have hnot : c ∉ [124, 40, 41, 59, 38, 60] := fun hin => hsym (by
        simp only [isSymbol, List.mem_cons, List.not_mem_nil, or_false, decide_eq_true_eq] at hin ⊢
        tauto)
      have hgt : c ≠ 62 := by
        rintro rfl
        exact hsym (by decide)
      simp only [scan, hbyte]
      rw [if_neg hne, if_neg hnot, if_neg hgt, hend]
    have hdropEnd : line.drop (q + 1 + (rest.takeWhile isWord).length) = rest.dropWhile isWord := by
      rw [← hend, drop_skip, hdrop, List.dropWhile_cons_of_pos hword]
    refine ⟨.word ⟨q, q + 1 + (rest.takeWhile isWord).length⟩, ?_, ?_, ?_, fun _ => ?_,
      fun toks htoks => ?_⟩
    · have hle := (List.takeWhile_sublist (l := rest) isWord).length_le
      rw [hscan, hlen]
      omega
    · rw [hscan, hdropEnd, hdrop, lex, if_neg (by rw [hc]; decide), if_neg hsym]
    · rw [hscan]
      rfl
    · rw [hscan]
    · rw [hbyte, contains_eq_false htoks (Bool.eq_false_iff.mpr hsym),
        contains_eq_false htoks (by exact (by decide : isSymbol 97 = false)), Bool.and_false]

/-- Behind white space there is a token or the end of the line. -/
theorem end_or_found (hnul : 0 ∉ line) (s : Nat) :
    line.drop (skip isSpace line s) = [] ∨ ∃ token, Found line (skip isSpace line s) token := by
  have hhead := List.head?_dropWhile_not isSpace (line.drop s)
  cases hdrop : line.drop (skip isSpace line s) with
  | nil => exact Or.inl rfl
  | cons c rest =>
    rw [← drop_skip, hdrop] at hhead
    exact Or.inr (found_of_drop hnul hdrop (by simpa using hhead))

/-- At the end of the line. -/
theorem scan_end (hdrop : line.drop q = []) : scan line q = (0, q) := by
  have hbyte : byteAt line q = 0 := by
    rw [byteAt_eq, hdrop]
    rfl
  rw [scan, hbyte]
  rfl

/-- The lexer on a line agrees with the tokens that follow the cursor. -/
theorem sim_line (hnul : 0 ∉ line) : (Lexer.ofLine line).Sim .ofTokens
    fun s ts => s ≤ line.length ∧ lex s (line.drop s) = ts where
  peek := by
    rintro s _ toks htoks ⟨hs, rfl⟩
    refine ⟨?_, skip_le isSpace hs, lex_skip line s⟩
    change (byteAt line (skip isSpace line s) ≠ 0 && toks.contains _) = Option.getD _ false
    rw [← lex_skip line s]
    rcases end_or_found hnul s with hend | ⟨token, hfound⟩
    · rw [byteAt_eq, hend, lex_nil]
      rfl
    · rw [hfound.symbol toks htoks, hfound.lex]
      rfl
  gettoken := by
    rintro s _ ⟨hs, rfl⟩
    change (scan line (skip isSpace line s)).1 = Option.getD _ 0 ∧
      (Option.getD _ 0 = 97 →
        (⟨_, (scan line (skip isSpace line s)).2⟩ : Tok) = Option.getD _ ⟨0, 0⟩) ∧
      skip isSpace line (scan line (skip isSpace line s)).2 ≤ line.length ∧
      lex (skip isSpace line (scan line (skip isSpace line s)).2)
        (line.drop (skip isSpace line (scan line (skip isSpace line s)).2)) = List.tail _
    rw [lex_skip line (scan line (skip isSpace line s)).2, ← lex_skip line s]
    rcases end_or_found hnul s with hend | ⟨token, hfound⟩
    · rw [scan_end hend, hend, lex_nil]
      exact ⟨rfl, fun h => absurd h (by decide), skip_le isSpace (skip_le isSpace hs), rfl⟩
    · rw [hfound.lex]
      refine ⟨hfound.code, fun hcode => ?_, skip_le isSpace hfound.le, rfl⟩
      have htoken := hfound.tok hcode
      rw [List.head?_cons, Option.map_some, Option.getD_some, htoken]
      rfl

end Line

/-! ## Words are maximal runs -/

/-- A token is a maximal run of bytes that are neither white space nor symbols. -/
def Maximal (line : List UInt8) (t : Tok) : Prop :=
  ∃ u w v, line = u ++ w ++ v ∧ t = ⟨u.length, u.length + w.length⟩ ∧ w ≠ [] ∧
    (∀ c ∈ w, isWord c = true) ∧ (∀ c, u.getLast? = some c → isWord c = false) ∧
    ∀ c, v.head? = some c → isWord c = false

/-- No run of a word goes on from `pre` to `bytes`. -/
def Boundary (pre bytes : List UInt8) : Prop :=
  ∀ c d, pre.getLast? = some c → bytes.head? = some d → isWord c = true → isWord d = false

/-- A word can begin after a space or a symbol. -/
theorem boundary_of_notWord {pre bytes : List UInt8} {c : UInt8} (hc : isWord c = false) :
    Boundary (pre ++ [c]) bytes := by
  intro d e hlast _ hword
  rw [List.getLast?_concat, Option.some.injEq] at hlast
  rw [hlast, hword] at hc
  exact Bool.noConfusion hc

/-- Spaces are not in words. -/
theorem isWord_of_isSpace {c : UInt8} (hc : isSpace c = true) : isWord c = false := by
  rw [isWord, hc]
  rfl

/-- Symbols are not in words. -/
theorem isWord_of_isSymbol {c : UInt8} (hc : isSymbol c = true) : isWord c = false := by
  rw [isWord, hc]
  exact Bool.and_false _

/-- The words are maximal. -/
theorem maximal_of_mem_lex {t : Tok} (pos : Nat) (bytes pre : List UInt8) (hpos : pre.length = pos)
    (hboundary : Boundary pre bytes) (hmem : Token.word t ∈ lex pos bytes) :
    Maximal (pre ++ bytes) t := by
  induction pos, bytes using lex.induct generalizing pre with
  | case1 pos =>
    rw [lex_nil] at hmem
    exact absurd hmem List.not_mem_nil
  | case2 pos c rest hspace ih =>
    rw [lex, if_pos hspace] at hmem
    have hnext := ih (pre ++ [c]) (by simp [hpos])
      (boundary_of_notWord (isWord_of_isSpace hspace)) hmem
    rwa [List.append_assoc] at hnext
  | case3 pos c rest hspace hsymbol happend ih =>
    rw [lex, if_neg hspace, if_pos hsymbol, if_pos happend] at hmem
    obtain ⟨rfl, hhead⟩ := happend
    obtain ⟨rest, rfl⟩ := List.head?_eq_some_iff.mp hhead
    have hlater := (List.mem_cons.mp hmem).resolve_left Token.noConfusion
    have hnext := ih (pre ++ [62] ++ [62]) (by simp [hpos]) (boundary_of_notWord (by decide)) hlater
    simpa using hnext
  | case4 pos c rest hspace hsymbol happend ih =>
    rw [lex, if_neg hspace, if_pos hsymbol, if_neg happend] at hmem
    have hlater : Token.word t ∈ lex (pos + 1) rest := by
      refine (List.mem_cons.mp hmem).resolve_left fun heq => ?_
      have hcode := (code_ofSymbol hsymbol).1
      rw [← heq] at hcode
      rw [← hcode] at hsymbol
      exact absurd hsymbol (by exact (by decide : ¬isSymbol 97 = true))
    have hnext := ih (pre ++ [c]) (by simp [hpos])
      (boundary_of_notWord (isWord_of_isSymbol hsymbol)) hlater
    rwa [List.append_assoc] at hnext
  | case5 pos c rest hspace hsymbol ih =>
    rw [lex, if_neg hspace, if_neg hsymbol] at hmem
    have hword : isWord c = true := by
      simp only [isWord, Bool.eq_false_iff.mpr hspace, Bool.eq_false_iff.mpr hsymbol]
      rfl
    have hsplit : rest.takeWhile isWord ++ rest.dropWhile isWord = rest :=
      List.takeWhile_append_dropWhile
    have hend : ∀ d, (rest.dropWhile isWord).head? = some d → isWord d = false := by
      intro d hd
      have hhead := List.head?_dropWhile_not isWord rest
      rw [hd] at hhead
      simpa using hhead
    rcases List.mem_cons.mp hmem with heq | hlater
    · -- the word that begins here
      refine ⟨pre, c :: rest.takeWhile isWord, rest.dropWhile isWord, ?_, ?_,
        List.cons_ne_nil _ _, ?_, fun d hd => ?_, hend⟩
      · rw [List.append_assoc, List.cons_append, hsplit]
      · rw [Token.word.inj heq, ← hpos, List.length_cons]
        congr 1
        omega
      · exact List.forall_mem_cons.mpr ⟨hword, fun x hx => List.mem_takeWhile_imp hx⟩
      · by_contra hd'
        have hcontra := hboundary d c hd rfl (Bool.eq_true_of_not_eq_false hd')
        rw [hword] at hcontra
        exact Bool.noConfusion hcontra
    · have hnext := ih (pre ++ c :: rest.takeWhile isWord) (by simp [hpos]; omega)
        (fun d e _ he _ => hend e he) hlater
      rw [List.append_assoc, List.cons_append, hsplit] at hnext
      exact hnext

end Shell
end Xv6
