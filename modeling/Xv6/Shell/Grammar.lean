import Mathlib.Tactic
import Xv6.Shell.Tokens

/-!
# The grammar of the shell

The grammar that the parser recognises, over tokens:

    line  := pipe '&'* [';' line]
    pipe  := exec ['|' pipe]
    exec  := '(' line ')' redir* | redir* (word redir*)*
    redir := ('<' | '>' | '>>') word

with less than `MAXARGS` words in an `exec`.

Main results:

- Theorem {lit}`derives_of_parseline`: what the parser accepts can be derived.
- Theorem {lit}`parse_of_derives`: what can be derived is accepted.
- Theorem {lit}`parseline_returns`: the parser comes to an end.
-/

namespace Xv6
namespace Shell

open List Lib

/-! ## The grammar -/

/-- What a symbol says about a file. -/
def redirection : Token → Tok → Option Redir
  | .lt, t => some ⟨t, 0x000, 0⟩
  | .gt, t => some ⟨t, 0x001 ||| 0x200 ||| 0x400, 1⟩
  | .append, t => some ⟨t, 0x001 ||| 0x200, 1⟩
  | _, _ => none

/-- `redir*`. -/
inductive Redirs : List Token → List Redir → Prop
  | nil : Redirs [] []
  | cons {op : Token} {t : Tok} {r : Redir} {ts : List Token} {rs : List Redir}
      (hop : redirection op t = some r) (h : Redirs ts rs) : Redirs (op :: .word t :: ts) (r :: rs)

/-- `(word redir*)*`. -/
inductive Args : List Token → List Tok → List Redir → Prop
  | nil : Args [] [] []
  | cons {t : Tok} {us ts : List Token} {argv : List Tok} {rs rs' : List Redir}
      (hrs : Redirs us rs) (h : Args ts argv rs') :
      Args (.word t :: (us ++ ts)) (t :: argv) (rs ++ rs')

/-- The nonterminals. -/
inductive Phrase where
  | line
  | pipe
  | exec

/-- A nonterminal derives a list of tokens, with a command for the derivation. -/
inductive Derives : Phrase → List Token → Cmd → Prop
  | simple {us ts : List Token} {argv : List Tok} {rs rs' : List Redir} (hrs : Redirs us rs)
      (hargs : Args ts argv rs') (hmax : argv.length ≤ maxargs - 1) :
      Derives .exec (us ++ ts) ((Cmd.exec argv).wrap (rs ++ rs'))
  | block {ts us : List Token} {cmd : Cmd} {rs : List Redir} (h : Derives .line ts cmd)
      (hrs : Redirs us rs) : Derives .exec (.lpar :: (ts ++ .rpar :: us)) (cmd.wrap rs)
  | single {ts : List Token} {cmd : Cmd} (h : Derives .exec ts cmd) : Derives .pipe ts cmd
  | pipe {ts us : List Token} {left right : Cmd} (h : Derives .exec ts left)
      (h' : Derives .pipe us right) : Derives .pipe (ts ++ .bar :: us) (.pipe left right)
  | last {ts : List Token} {cmd : Cmd} (h : Derives .pipe ts cmd) (k : Nat) :
      Derives .line (ts ++ replicate k .amp) (Cmd.back^[k] cmd)
  | seq {ts us : List Token} {cmd right : Cmd} (h : Derives .pipe ts cmd) (k : Nat)
      (h' : Derives .line us right) :
      Derives .line (ts ++ (replicate k .amp ++ .semi :: us)) (.list (Cmd.back^[k] cmd) right)

/-! ## The lexer on tokens -/

section OfTokens

variable (rounds fuel : Nat) (rs : List Redir) (argv : List Tok) (t : Token) (ts : List Token)

/-- `parseredirs` before the last token. -/
theorem parseredirs_single : parseredirs .ofTokens (fuel + 1) rs [t] =
    if [60, 62].contains t.symbol then .error "missing file for redirection"
    else .ok (rs, [t]) := rfl

/-- `parseredirs` before two tokens. -/
theorem parseredirs_cons (file : Token) : parseredirs .ofTokens (fuel + 1) rs (t :: file :: ts) =
    if [60, 62].contains t.symbol then
      if file.code ≠ 97 then .error "missing file for redirection"
      else parseredirs .ofTokens fuel (rs ++ (redirOf t.code file.tok).toList) ts
    else .ok (rs, t :: file :: ts) := rfl

/-- The loop of `parseexec` before a token. -/
theorem parseargs_cons : parseargs .ofTokens rounds (fuel + 1) argv rs (t :: ts) =
    if [124, 41, 38, 59].contains t.symbol then .ok ((argv, rs), t :: ts)
    else if t.code = 0 then .ok ((argv, rs), ts)
    else if t.code ≠ 97 then .error "syntax"
    else if (argv ++ [t.tok]).length ≥ maxargs then .error "too many args"
    else
      (parseredirs .ofTokens rounds rs ts).andThen fun rs s =>
        parseargs .ofTokens rounds fuel (argv ++ [t.tok]) rs s := rfl

/-- A symbol of a redirection says what its code says. -/
theorem redirOf_code {op : Token} (hop : op.symbol = 60 ∨ op.symbol = 62) (t : Tok) :
    redirOf op.code t = redirection op t ∧ ∃ r, redirection op t = some r := by
  cases op with
  | lt | gt | append => exact ⟨rfl, _, rfl⟩
  | bar | amp | semi | lpar | rpar => exact absurd hop (by decide)
  | word t => exact absurd hop (by exact (by decide : ¬((97 : UInt8) = 60 ∨ (97 : UInt8) = 62)))

/-- Only words have the code of a word. -/
theorem code_eq_word {t : Token} (h : t.code = 97) : ∃ w, t = .word w ∧ t.tok = w := by
  cases t with
  | word w => exact ⟨w, rfl, rfl⟩
  | _ => exact absurd h (by decide)

/-- No token has the code of the end. -/
theorem code_ne_zero (t : Token) : t.code ≠ 0 := by
  cases t with
  | word w => exact (by decide : (97 : UInt8) ≠ 0)
  | _ => decide

/-- A symbol of one byte that no other token begins with. -/
theorem ofSymbol_symbol {t : Token} (h : t.symbol ∈ ([124, 41, 38, 59, 40] : List UInt8)) :
    Token.ofSymbol t.symbol = t := by
  cases t with
  | append => exact absurd h (by decide)
  | word w => exact absurd h (by exact (by decide : (97 : UInt8) ∉ [124, 41, 38, 59, 40]))
  | _ => rfl

/-- `peek` for a symbol finds that symbol. -/
theorem peek_single {u : Token} (hu : u.symbol ∈ ([124, 41, 38, 59, 40] : List UInt8)) :
    (Lexer.ofTokens.peek ts [u.symbol]).1 = true ↔ ∃ us, ts = u :: us := by
  cases ts with
  | nil =>
    exact ⟨fun h => (nomatch h), fun ⟨us, h⟩ => (nomatch h)⟩
  | cons t ts =>
    have hpeek : (Lexer.ofTokens.peek (t :: ts) [u.symbol]).1 = true ↔ t.symbol = u.symbol := by
      change [u.symbol].contains t.symbol = true ↔ _
      rw [contains_iff_mem, mem_singleton]
    rw [hpeek]
    constructor
    · intro h
      have ht := ofSymbol_symbol (h ▸ hu)
      rw [h, ofSymbol_symbol hu] at ht
      exact ⟨ts, by rw [ht]⟩
    · rintro ⟨us, h⟩
      rw [(cons.inj h).1]

/-- `peek` for `|`. -/
theorem peek_bar : (Lexer.ofTokens.peek ts [124]).1 = true ↔ ∃ us, ts = .bar :: us :=
  peek_single ts (u := .bar) (by decide)

/-- `peek` for `)`. -/
theorem peek_rpar : (Lexer.ofTokens.peek ts [41]).1 = true ↔ ∃ us, ts = .rpar :: us :=
  peek_single ts (u := .rpar) (by decide)

/-- `peek` for `&`. -/
theorem peek_amp : (Lexer.ofTokens.peek ts [38]).1 = true ↔ ∃ us, ts = .amp :: us :=
  peek_single ts (u := .amp) (by decide)

/-- `peek` for `;`. -/
theorem peek_semi : (Lexer.ofTokens.peek ts [59]).1 = true ↔ ∃ us, ts = .semi :: us :=
  peek_single ts (u := .semi) (by decide)

/-- `peek` for `(`. -/
theorem peek_lpar : (Lexer.ofTokens.peek ts [40]).1 = true ↔ ∃ us, ts = .lpar :: us :=
  peek_single ts (u := .lpar) (by decide)

end OfTokens

/-- A sequence succeeds if both parts do. -/
theorem andThen_eq_ok {σ α β : Type} {r : Parsed σ α} {f : α → σ → Parsed σ β} {x : β × σ} :
    r.andThen f = .ok x ↔ ∃ a s, r = .ok (a, s) ∧ f a s = .ok x := by
  constructor
  · intro h
    match r, h with
    | .ok (a, s), h => exact ⟨a, s, rfl, h⟩
  · rintro ⟨a, s, rfl, h⟩
    exact h

/-! ## What is accepted can be derived -/

section Soundness

variable {ts ts' : List Token} {rs rs' : List Redir} {argv argv' : List Tok} {cmd cmd' : Cmd}
  {fuel rounds : Nat}

/-- What `parseredirs` accepts is `redir*`. -/
theorem redirs_of_parseredirs (h : parseredirs .ofTokens fuel rs ts = .ok (rs', ts')) :
    ∃ us more, ts = us ++ ts' ∧ rs' = rs ++ more ∧ Redirs us more := by
  induction fuel generalizing rs ts with
  | zero => exact nomatch h
  | succ fuel ih =>
    match ts with
    | [] =>
      cases h
      exact ⟨[], [], rfl, by simp, .nil⟩
    | [op] =>
      rw [parseredirs_single] at h
      split at h
      next => exact nomatch h
      next =>
        cases h
        exact ⟨[], [], rfl, by simp, .nil⟩
    | op :: file :: ts =>
      rw [parseredirs_cons] at h
      split at h
      next hop =>
        split at h
        next => exact nomatch h
        next hfile =>
          obtain ⟨t, rfl, htok⟩ := code_eq_word (not_not.mp hfile)
          have hsymbol : op.symbol = 60 ∨ op.symbol = 62 := by simpa using hop
          obtain ⟨hcode, r, hr⟩ := redirOf_code hsymbol t
          rw [htok, hcode, hr] at h
          obtain ⟨us, more, rfl, rfl, hredirs⟩ := ih h
          exact ⟨op :: .word t :: us, r :: more, rfl, append_assoc _ _ _, .cons hr hredirs⟩
      next =>
        cases h
        exact ⟨[], [], rfl, by simp, .nil⟩

/-- What the loop of `parseexec` accepts is `(word redir*)*`. -/
theorem args_of_parseargs
    (h : parseargs .ofTokens rounds fuel argv rs ts = .ok ((argv', rs'), ts'))
    (hmax : argv.length < maxargs) :
    ∃ us words more, ts = us ++ ts' ∧ argv' = argv ++ words ∧ rs' = rs ++ more ∧
      Args us words more ∧ argv'.length < maxargs := by
  induction fuel generalizing argv rs ts with
  | zero => exact nomatch h
  | succ fuel ih =>
    match ts with
    | [] =>
      cases h
      exact ⟨[], [], [], rfl, by simp, by simp, .nil, hmax⟩
    | word :: ts =>
      rw [parseargs_cons, if_neg (code_ne_zero word)] at h
      split at h
      next =>
        cases h
        exact ⟨[], [], [], rfl, by simp, by simp, .nil, hmax⟩
      next =>
        split at h
        next => exact nomatch h
        next hword =>
          obtain ⟨t, rfl, htok⟩ := code_eq_word (not_not.mp hword)
          rw [htok] at h
          split at h
          next => exact nomatch h
          next hfew =>
            obtain ⟨rs₁, ts₁, hredirs, hrest⟩ := andThen_eq_ok.mp h
            obtain ⟨us, more, rfl, rfl, hus⟩ := redirs_of_parseredirs hredirs
            obtain ⟨vs, words, more', rfl, rfl, rfl, hvs, hlen⟩ := ih hrest (not_le.mp hfew)
            refine ⟨.word t :: (us ++ vs), t :: words, more ++ more', ?_, append_assoc _ _ _,
              append_assoc _ _ _, .cons hus hvs, hlen⟩
            rw [cons_append, append_assoc]

/-- What `line` accepts can be derived. -/
def Sound (line : List Token → Parsed (List Token) Cmd) : Prop :=
  ∀ ts cmd ts', line ts = .ok (cmd, ts') → ∃ us, ts = us ++ ts' ∧ Derives .line us cmd

variable {line : List Token → Parsed (List Token) Cmd}

/-- What `parseblock` accepts is an `exec` with a block. -/
theorem derives_of_parseblock (hline : Sound line)
    (h : parseblock .ofTokens rounds line (.lpar :: ts) = .ok (cmd, ts')) :
    ∃ us, .lpar :: ts = us ++ ts' ∧ Derives .exec us cmd := by
  obtain ⟨cmd₁, ts₁, hcmd, hclose⟩ := andThen_eq_ok.mp h
  obtain ⟨us, rfl, hus⟩ := hline ts cmd₁ ts₁ hcmd
  dsimp only at hclose
  split at hclose
  next hpeek =>
    obtain ⟨ts₂, rfl⟩ := (peek_rpar ts₁).mp hpeek
    obtain ⟨rs, ts₃, hredirs, hdone⟩ := andThen_eq_ok.mp hclose
    obtain ⟨vs, more, rfl, rfl, hvs⟩ := redirs_of_parseredirs hredirs
    cases hdone
    refine ⟨.lpar :: (us ++ .rpar :: vs), ?_, .block hus hvs⟩
    simp
  next => exact nomatch hclose

/-- What `parseexec` accepts is an `exec`. -/
theorem derives_of_parseexec (hline : Sound line)
    (h : parseexec .ofTokens rounds line ts = .ok (cmd, ts')) :
    ∃ us, ts = us ++ ts' ∧ Derives .exec us cmd := by
  rw [parseexec] at h
  split at h
  next hpeek =>
    obtain ⟨ts₁, rfl⟩ := (peek_lpar ts).mp hpeek
    exact derives_of_parseblock hline h
  next =>
    obtain ⟨rs, ts₁, hredirs, hthen⟩ := andThen_eq_ok.mp h
    obtain ⟨⟨argv, rs'⟩, ts₂, hargs, hdone⟩ := andThen_eq_ok.mp hthen
    obtain ⟨us, more, hts, rfl, hus⟩ := redirs_of_parseredirs hredirs
    obtain ⟨vs, words, more', rfl, rfl, rfl, hvs, hlen⟩ := args_of_parseargs hargs (by decide)
    cases hdone
    refine ⟨us ++ vs, ?_, .simple hus hvs (Nat.le_pred_of_lt hlen)⟩
    rw [append_assoc]
    exact hts

/-- What `parsepipe` accepts is a `pipe`. -/
theorem derives_of_parsepipe (hline : Sound line)
    (h : parsepipe .ofTokens rounds line fuel ts = .ok (cmd, ts')) :
    ∃ us, ts = us ++ ts' ∧ Derives .pipe us cmd := by
  induction fuel generalizing ts cmd ts' with
  | zero => exact nomatch h
  | succ fuel ih =>
    obtain ⟨left, ts₁, hexec, hthen⟩ := andThen_eq_ok.mp h
    obtain ⟨us, rfl, hus⟩ := derives_of_parseexec hline hexec
    dsimp only at hthen
    split at hthen
    next hpeek =>
      obtain ⟨ts₂, rfl⟩ := (peek_bar ts₁).mp hpeek
      obtain ⟨right, ts₃, hright, hdone⟩ := andThen_eq_ok.mp hthen
      obtain ⟨vs, hvs, hpipe⟩ := ih hright
      cases hdone
      refine ⟨us ++ .bar :: vs, ?_, .pipe hus hpipe⟩
      rw [append_assoc, cons_append]
      exact congrArg (us ++ Token.bar :: ·) hvs
    next =>
      cases hthen
      exact ⟨us, rfl, .single hus⟩

/-- What the loop of `parseline` accepts is `'&'*`. -/
theorem amps_of_parseback (h : parseback .ofTokens fuel cmd ts = .ok (cmd', ts')) :
    ∃ k, ts = replicate k .amp ++ ts' ∧ cmd' = Cmd.back^[k] cmd := by
  induction fuel generalizing cmd ts with
  | zero => exact nomatch h
  | succ fuel ih =>
    rw [parseback] at h
    split at h
    next hpeek =>
      obtain ⟨ts₁, rfl⟩ := (peek_amp ts).mp hpeek
      obtain ⟨k, hk, rfl⟩ := ih h
      exact ⟨k + 1, congrArg (Token.amp :: ·) hk, rfl⟩
    next =>
      cases h
      exact ⟨0, rfl, rfl⟩

/-- What the parser accepts can be derived. -/
theorem derives_of_parseline (h : parseline .ofTokens rounds fuel ts = .ok (cmd, ts')) :
    ∃ us, ts = us ++ ts' ∧ Derives .line us cmd := by
  induction fuel generalizing ts cmd ts' with
  | zero => exact nomatch h
  | succ fuel ih =>
    obtain ⟨cmd₁, ts₁, hpipe, hthen⟩ := andThen_eq_ok.mp h
    obtain ⟨us, rfl, hus⟩ := derives_of_parsepipe (fun ts cmd ts' => ih) hpipe
    obtain ⟨cmd₂, ts₂, hback, hlist⟩ := andThen_eq_ok.mp hthen
    obtain ⟨k, rfl, rfl⟩ := amps_of_parseback hback
    dsimp only at hlist
    split at hlist
    next hpeek =>
      obtain ⟨ts₃, rfl⟩ := (peek_semi ts₂).mp hpeek
      obtain ⟨right, ts₄, hright, hdone⟩ := andThen_eq_ok.mp hlist
      obtain ⟨vs, hvs, hline⟩ := ih hright
      cases hdone
      refine ⟨us ++ (replicate k .amp ++ .semi :: vs), ?_, .seq hus k hline⟩
      rw [append_assoc, append_assoc, cons_append]
      exact congrArg (fun ts => us ++ (replicate k Token.amp ++ Token.semi :: ts)) hvs
    next =>
      cases hlist
      refine ⟨us ++ replicate k .amp, ?_, .last hus k⟩
      rw [append_assoc]
      rfl

end Soundness

/-! ## What can be derived is accepted -/

/-- The tokens that may stand behind a phrase. -/
def Phrase.follow : Phrase → List Token
  | .line => [.rpar]
  | .pipe => [.rpar, .amp, .semi]
  | .exec => [.rpar, .amp, .semi, .bar]

/-- The parser finds the phrase before `rest`. -/
def Parses (rounds : Nat) : Phrase → List Token → Cmd → List Token → Prop
  | .line, ts, cmd, rest => ∀ fuel, ts.length < fuel →
      parseline .ofTokens rounds fuel (ts ++ rest) = .ok (cmd, rest)
  | .pipe, ts, cmd, rest => ∀ lines fuel, ts.length ≤ lines → ts.length < fuel →
      parsepipe .ofTokens rounds (parseline .ofTokens rounds lines) fuel (ts ++ rest) =
        .ok (cmd, rest)
  | .exec, ts, cmd, rest => ∀ lines, ts.length ≤ lines →
      parseexec .ofTokens rounds (parseline .ofTokens rounds lines) (ts ++ rest) = .ok (cmd, rest)

section Completeness

variable {ts us rest : List Token} {rs rs' more : List Redir} {argv words : List Tok} {cmd : Cmd}
  {fuel rounds : Nat}

/-- `parseredirs` stops where no redirection stands. -/
theorem parseredirs_stop (hrest : ∀ t ∈ rest.head?, [60, 62].contains t.symbol = false) :
    parseredirs .ofTokens (fuel + 1) rs rest = .ok (rs, rest) := by
  match rest with
  | [] => rfl
  | [t] =>
    rw [parseredirs_single, hrest t rfl]
    rfl
  | t :: file :: ts =>
    rw [parseredirs_cons, hrest t rfl]
    rfl

/-- `parseredirs` accepts `redir*`. -/
theorem parseredirs_of_redirs (h : Redirs us more)
    (hrest : ∀ t ∈ rest.head?, [60, 62].contains t.symbol = false) (hfuel : us.length < fuel) :
    parseredirs .ofTokens fuel rs (us ++ rest) = .ok (rs ++ more, rest) := by
  induction h generalizing rs fuel with
  | nil =>
    obtain ⟨fuel, rfl⟩ := Nat.exists_eq_add_one.mpr hfuel.pos
    rw [append_nil]
    exact parseredirs_stop hrest
  | @cons op t r ts more hop h ih =>
    obtain ⟨fuel, rfl⟩ := Nat.exists_eq_add_one.mpr hfuel.pos
    have hsymbol : op.symbol = 60 ∨ op.symbol = 62 := by
      cases op with
      | lt => exact Or.inl rfl
      | gt => exact Or.inr rfl
      | append => exact Or.inr rfl
      | _ => exact nomatch (hop : none = some r)
    have hcontains : [60, 62].contains op.symbol = true := by simpa using hsymbol
    rw [cons_append, cons_append, parseredirs_cons, if_pos hcontains,
      if_neg (by exact (by decide : ¬(97 : UInt8) ≠ 97))]
    have htok : (redirOf op.code (Token.word t).tok).toList = [r] := by
      change (redirOf op.code t).toList = [r]
      rw [(redirOf_code hsymbol t).1, hop]
      rfl
    rw [htok, ih (by simp at hfuel; omega), append_assoc]
    rfl

/-- What stands behind an `exec` is no redirection, no word and no block. -/
theorem symbol_of_mem_follow {X : Phrase} {t : Token} (ht : t ∈ X.follow) :
    [60, 62].contains t.symbol = false ∧ [124, 41, 38, 59].contains t.symbol = true ∧
      t ≠ .lpar := by
  cases X <;> simp only [Phrase.follow, mem_cons, not_mem_nil, or_false] at ht <;>
    rcases ht with rfl | rfl | rfl | rfl <;> decide

/-- What stands behind `redir*` in an `exec`. -/
theorem head_args {t : Token} (h : Args ts words more)
    (hrest : ∀ t ∈ rest.head?, t ∈ Phrase.exec.follow) (ht : t ∈ (ts ++ rest).head?) :
    t ∈ Phrase.exec.follow ∨ ∃ w, t = .word w := by
  cases h with
  | nil => exact Or.inl (hrest t ht)
  | @cons w us ts argv rs rs' hrs h => exact Or.inr ⟨w, (Option.some.inj ht).symm⟩

/-- The loop of `parseexec` accepts `(word redir*)*`. -/
theorem parseargs_of_args (h : Args us words more)
    (hrest : ∀ t ∈ rest.head?, t ∈ Phrase.exec.follow) (hmax : argv.length + words.length < maxargs)
    (hrounds : us.length < rounds) (hfuel : us.length < fuel) :
    parseargs .ofTokens rounds fuel argv rs (us ++ rest) =
      .ok ((argv ++ words, rs ++ more), rest) := by
  induction h generalizing argv rs fuel with
  | nil =>
    obtain ⟨fuel, rfl⟩ := Nat.exists_eq_add_one.mpr hfuel.pos
    rw [append_nil, append_nil, nil_append]
    match rest with
    | [] => rfl
    | t :: ts => rw [parseargs_cons, if_pos (symbol_of_mem_follow (hrest t rfl)).2.1]
  | @cons t us ts words rs₁ rs₂ hrs h ih =>
    obtain ⟨fuel, rfl⟩ := Nat.exists_eq_add_one.mpr hfuel.pos
    simp only [length_cons, length_append] at hmax hrounds hfuel
    have hnext : ∀ t ∈ (ts ++ rest).head?, [60, 62].contains t.symbol = false := by
      intro t ht
      rcases head_args h hrest ht with hfollow | ⟨w, rfl⟩
      · exact (symbol_of_mem_follow hfollow).1
      · exact (by decide : [60, 62].contains (97 : UInt8) = false)
    have hfew : ¬(argv ++ [(Token.word t).tok]).length ≥ maxargs := by
      rw [length_append, length_singleton]
      omega
    rw [cons_append, parseargs_cons,
      if_neg (by exact (by decide : ¬[124, 41, 38, 59].contains (97 : UInt8) = true)),
      if_neg (code_ne_zero _), if_neg (by exact (by decide : ¬(97 : UInt8) ≠ 97)), if_neg hfew,
      append_assoc, parseredirs_of_redirs hrs hnext (by omega)]
    change parseargs _ _ _ (argv ++ [t]) _ _ = _
    rw [ih (by simp; omega) (by omega) (by omega), append_assoc, append_assoc]
    rfl

/-- `parseexec` before a block. -/
theorem parseexec_lpar (line : List Token → Parsed (List Token) Cmd) :
    parseexec .ofTokens rounds line (.lpar :: ts) = (line ts).andThen fun cmd ts =>
      if (Lexer.ofTokens.peek ts [41]).1 then
        (parseredirs .ofTokens rounds [] ts.tail).andThen fun rs s => .ok (cmd.wrap rs, s)
      else .error "syntax - missing )" := rfl

/-- `parseexec` before anything else. -/
theorem parseexec_simple (line : List Token → Parsed (List Token) Cmd)
    (h : ¬∃ us, ts = .lpar :: us) :
    parseexec .ofTokens rounds line ts = (parseredirs .ofTokens rounds [] ts).andThen fun rs s =>
      (parseargs .ofTokens rounds rounds [] rs s).andThen fun args s =>
        .ok ((Cmd.exec args.1).wrap args.2, s) := by
  rw [parseexec, if_neg (mt (peek_lpar ts).mp h)]
  rfl

/-- The loop of `parseline` accepts `'&'*`. -/
theorem parseback_of_amps (k : Nat) (hrest : ¬∃ us, rest = .amp :: us) (hfuel : k < fuel) :
    parseback .ofTokens fuel cmd (replicate k .amp ++ rest) =
      .ok (Cmd.back^[k] cmd, rest) := by
  induction k generalizing cmd fuel with
  | zero =>
    obtain ⟨fuel, rfl⟩ := Nat.exists_eq_add_one.mpr hfuel.pos
    rw [replicate_zero, nil_append, parseback, if_neg (mt (peek_amp rest).mp hrest)]
    rfl
  | succ k ih =>
    obtain ⟨fuel, rfl⟩ := Nat.exists_eq_add_one.mpr hfuel.pos
    rw [replicate_succ, cons_append, parseback, if_pos ((peek_amp _).mpr ⟨_, rfl⟩)]
    exact ih (by omega)

/-- A token that may not follow does not follow. -/
theorem not_cons_of_follow {X : Phrase} {t : Token} (hrest : ∀ t ∈ rest.head?, t ∈ X.follow)
    (ht : t ∉ X.follow) : ¬∃ us, rest = t :: us := by
  rintro ⟨us, rfl⟩
  exact ht (hrest t rfl)

/-- `parseexec` accepts words and redirections. -/
theorem parse_simple (hus : Redirs us rs) (hts : Args ts argv rs')
    (hmax : argv.length ≤ maxargs - 1) (hrest : ∀ t ∈ rest.head?, t ∈ Phrase.exec.follow)
    (hrounds : (us ++ ts).length < rounds) :
    Parses rounds .exec (us ++ ts) ((Cmd.exec argv).wrap (rs ++ rs')) rest := by
  intro lines _
  rw [length_append] at hrounds
  have hnext : ∀ t ∈ (ts ++ rest).head?, [60, 62].contains t.symbol = false ∧ t ≠ .lpar := by
    intro t ht
    rcases head_args hts hrest ht with hfollow | ⟨w, rfl⟩
    · exact ⟨(symbol_of_mem_follow hfollow).1, (symbol_of_mem_follow hfollow).2.2⟩
    · exact ⟨(by decide : [60, 62].contains (97 : UInt8) = false), Token.noConfusion⟩
  have hblock : ¬∃ vs, us ++ (ts ++ rest) = .lpar :: vs := by
    rintro ⟨vs, hvs⟩
    cases hus with
    | nil =>
      rw [nil_append] at hvs
      rw [hvs] at hnext
      exact (hnext .lpar rfl).2 rfl
    | cons hop h =>
      rw [(cons.inj hvs).1] at hop
      exact nomatch (hop : none = some _)
  have hfew : ([] : List Tok).length + argv.length < maxargs := by
    have hpos : 0 < maxargs := by decide
    rw [length_nil]
    omega
  rw [append_assoc, parseexec_simple _ hblock,
    parseredirs_of_redirs hus (fun t ht => (hnext t ht).1) (by omega)]
  change Parsed.andThen (parseargs _ _ _ _ _ _) _ = _
  rw [parseargs_of_args hts hrest hfew (by omega) (by omega)]
  rfl

/-- What stands behind the `pipe` of a last `line`. -/
theorem head_amps (k : Nat) (hrest : ∀ t ∈ rest.head?, t ∈ Phrase.line.follow) :
    ∀ t ∈ (replicate k Token.amp ++ rest).head?, t ∈ Phrase.pipe.follow := by
  intro t ht
  cases k with
  | zero => exact mem_append_left [.amp, .semi] (hrest t ht)
  | succ k =>
    cases ht
    decide

/-- What stands behind a `pipe` that `;` ends. -/
theorem head_semi (k : Nat) (ts : List Token) :
    ∀ t ∈ (replicate k Token.amp ++ Token.semi :: ts).head?, t ∈ Phrase.pipe.follow := by
  intro t ht
  cases k <;> cases ht <;> decide

/-- What can be derived is accepted. -/
theorem parse_of_derives {X : Phrase} (h : Derives X ts cmd) (rest : List Token)
    (hrest : ∀ t ∈ rest.head?, t ∈ X.follow) (hrounds : ts.length < rounds) :
    Parses rounds X ts cmd rest := by
  induction h generalizing rest with
  | simple hrs hargs hmax => exact parse_simple hrs hargs hmax hrest hrounds
  | @block ts us cmd rs h hrs ih =>
    intro lines hlines
    simp only [length_cons, length_append] at hrounds hlines
    have hline := ih (.rpar :: (us ++ rest)) (by simp [Phrase.follow]) (by omega) lines
      (by omega)
    rw [cons_append, append_assoc, cons_append, parseexec_lpar, hline]
    change Parsed.andThen (parseredirs _ _ _ (us ++ rest)) _ = _
    rw [parseredirs_of_redirs hrs (fun t ht => (symbol_of_mem_follow (hrest t ht)).1) (by omega)]
    rfl
  | @single ts cmd h ih =>
    intro lines fuel hlines hfuel
    obtain ⟨fuel, rfl⟩ := Nat.exists_eq_add_one.mpr hfuel.pos
    have hexec := ih rest
      (fun t ht => mem_append_left [Token.bar] (hrest t ht)) hrounds lines hlines
    rw [parsepipe, hexec]
    change (if (Lexer.ofTokens.peek rest [124]).1 then _ else _) = _
    rw [if_neg (mt (peek_bar rest).mp (not_cons_of_follow hrest (by decide)))]
    rfl
  | @pipe ts us left right h h' ih ih' =>
    intro lines fuel hlines hfuel
    obtain ⟨fuel, rfl⟩ := Nat.exists_eq_add_one.mpr hfuel.pos
    simp only [length_cons, length_append] at hrounds hlines hfuel
    have hexec := ih (.bar :: (us ++ rest)) (by simp [Phrase.follow]) (by omega) lines
      (by omega)
    have hpipe := ih' rest hrest (by omega) lines fuel (by omega) (by omega)
    rw [append_assoc, cons_append, parsepipe, hexec]
    change Parsed.andThen (parsepipe _ _ _ _ (us ++ rest)) _ = _
    rw [hpipe]
    rfl
  | @last ts cmd h k ih =>
    intro fuel hfuel
    obtain ⟨fuel, rfl⟩ := Nat.exists_eq_add_one.mpr hfuel.pos
    simp only [length_append, length_replicate] at hrounds hfuel
    have hpipe := ih (replicate k .amp ++ rest) (head_amps k hrest) (by omega) fuel
      rounds (by omega) (by omega)
    rw [append_assoc, parseline, hpipe]
    change Parsed.andThen (parseback _ _ cmd _) _ = _
    rw [parseback_of_amps k (not_cons_of_follow hrest (by decide)) (by omega)]
    change (if (Lexer.ofTokens.peek rest [59]).1 then _ else _) = _
    rw [if_neg (mt (peek_semi rest).mp (not_cons_of_follow hrest (by decide)))]
    rfl
  | @seq ts us cmd right h k h' ih ih' =>
    intro fuel hfuel
    obtain ⟨fuel, rfl⟩ := Nat.exists_eq_add_one.mpr hfuel.pos
    simp only [length_append, length_replicate, length_cons] at hrounds hfuel
    have hpipe := ih (replicate k .amp ++ .semi :: (us ++ rest)) (head_semi k _)
      (by omega) fuel rounds (by omega) (by omega)
    have hline := ih' rest hrest (by omega) fuel (by omega)
    rw [append_assoc, append_assoc, cons_append, parseline, hpipe]
    change Parsed.andThen (parseback _ _ cmd _) _ = _
    rw [parseback_of_amps k (fun ⟨us, h⟩ => nomatch h) (by omega)]
    change Parsed.andThen (parseline _ _ _ (us ++ rest)) _ = _
    rw [hline]
    rfl

end Completeness

/-! ## The parser comes to an end -/

section Termination

variable {ts : List Token} {rs : List Redir} {argv : List Tok} {cmd : Cmd} {fuel rounds : Nat}

/-- A sequence comes to an end if both parts do. -/
theorem andThen_returns {σ α β : Type} {r : Parsed σ α} {f : α → σ → Parsed σ β}
    (hr : r ≠ .error "loop") (hf : ∀ a s, r = .ok (a, s) → f a s ≠ .error "loop") :
    r.andThen f ≠ .error "loop" := by
  match r, hr, hf with
  | .error e, hr, _ => exact fun h => hr (congrArg Except.error (Except.error.inj h))
  | .ok (a, s), _, hf => exact hf a s rfl

/-- `parseredirs` comes to an end. -/
theorem parseredirs_returns (hfuel : ts.length < fuel) :
    parseredirs .ofTokens fuel rs ts ≠ .error "loop" := by
  induction fuel generalizing rs ts with
  | zero => exact absurd hfuel (Nat.not_lt_zero _)
  | succ fuel ih =>
    match ts with
    | [] => exact nofun
    | [op] =>
      rw [parseredirs_single]
      split <;> simp
    | op :: file :: ts =>
      rw [parseredirs_cons]
      simp only [length_cons] at hfuel
      split
      next =>
        split
        next => simp
        next => exact ih (by omega)
      next => exact nofun

/-- The loop of `parseexec` comes to an end. -/
theorem parseargs_returns (hrounds : ts.length < rounds) (hfuel : ts.length < fuel) :
    parseargs .ofTokens rounds fuel argv rs ts ≠ .error "loop" := by
  induction fuel generalizing argv rs ts with
  | zero => exact absurd hfuel (Nat.not_lt_zero _)
  | succ fuel ih =>
    match ts with
    | [] => exact nofun
    | word :: ts =>
      rw [parseargs_cons, if_neg (code_ne_zero word)]
      simp only [length_cons] at hfuel hrounds
      split
      next => exact nofun
      next =>
        split
        next => simp
        next =>
          split
          next => simp
          next =>
            refine andThen_returns (parseredirs_returns (by omega)) fun rs' ts' hredirs => ?_
            obtain ⟨us, more, rfl, -, -⟩ := redirs_of_parseredirs hredirs
            rw [length_append] at hfuel hrounds
            exact ih (by omega) (by omega)

variable {line : List Token → Parsed (List Token) Cmd} {lines : Nat}

/-- `parseexec` comes to an end. -/
theorem parseexec_returns (hsound : Sound line)
    (hline : ∀ ts, ts.length < lines → line ts ≠ .error "loop") (hlines : ts.length ≤ lines)
    (hrounds : ts.length < rounds) : parseexec .ofTokens rounds line ts ≠ .error "loop" := by
  by_cases hblock : ∃ us, ts = .lpar :: us
  · obtain ⟨ts, rfl⟩ := hblock
    rw [length_cons] at hlines hrounds
    rw [parseexec_lpar]
    refine andThen_returns (hline ts (by omega)) fun cmd ts' hcmd => ?_
    obtain ⟨us, rfl, -⟩ := hsound ts cmd ts' hcmd
    rw [length_append] at hrounds
    split
    next =>
      have hredirs : ts'.tail.length < rounds := by
        rw [length_tail]
        omega
      exact andThen_returns (parseredirs_returns hredirs) fun rs s _ => nofun
    next => simp
  · rw [parseexec_simple line hblock]
    refine andThen_returns (parseredirs_returns hrounds) fun rs ts' hredirs => ?_
    obtain ⟨us, more, rfl, -, -⟩ := redirs_of_parseredirs hredirs
    rw [length_append] at hrounds
    exact andThen_returns (parseargs_returns (by omega) (by omega)) fun args s _ => nofun

/-- `parsepipe` comes to an end. -/
theorem parsepipe_returns (ts : List Token) (hsound : Sound line)
    (hline : ∀ ts, ts.length < lines → line ts ≠ .error "loop") (hlines : ts.length ≤ lines)
    (hrounds : ts.length < rounds) (hfuel : ts.length < fuel) :
    parsepipe .ofTokens rounds line fuel ts ≠ .error "loop" := by
  induction fuel generalizing ts with
  | zero => exact absurd hfuel (Nat.not_lt_zero _)
  | succ fuel ih =>
    refine andThen_returns (parseexec_returns hsound hline hlines hrounds) fun cmd ts' hexec => ?_
    obtain ⟨us, rfl, -⟩ := derives_of_parseexec hsound hexec
    rw [length_append] at hlines hrounds hfuel
    dsimp only
    split
    next hpeek =>
      obtain ⟨vs, rfl⟩ := (peek_bar ts').mp hpeek
      rw [length_cons] at hlines hrounds hfuel
      exact andThen_returns (ih vs (by omega) (by omega) (by omega)) fun right s _ => nofun
    next => exact nofun

/-- The loop of `parseline` comes to an end. -/
theorem parseback_returns (ts : List Token) (hfuel : ts.length < fuel) :
    parseback .ofTokens fuel cmd ts ≠ .error "loop" := by
  induction fuel generalizing cmd ts with
  | zero => exact absurd hfuel (Nat.not_lt_zero _)
  | succ fuel ih =>
    rw [parseback]
    split
    next hpeek =>
      obtain ⟨us, rfl⟩ := (peek_amp ts).mp hpeek
      rw [length_cons] at hfuel
      exact ih us (by omega)
    next => exact nofun

/-- The parser comes to an end, as every call takes a token. -/
theorem parseline_returns (ts : List Token) (hrounds : ts.length < rounds)
    (hfuel : ts.length < fuel) :
    parseline .ofTokens rounds fuel ts ≠ .error "loop" := by
  induction fuel generalizing ts with
  | zero => exact absurd hfuel (Nat.not_lt_zero _)
  | succ fuel ih =>
    -- a block is shorter than the line it stands in
    have hline : ∀ ts : List Token, ts.length < min fuel rounds →
        parseline .ofTokens rounds fuel ts ≠ .error "loop" :=
      fun ts hts => ih ts (by omega) (by omega)
    refine andThen_returns (parsepipe_returns ts (fun _ _ _ => derives_of_parseline) hline
      (by omega) hrounds hrounds) fun cmd ts' hcmd => ?_
    obtain ⟨us, rfl, -⟩ := derives_of_parsepipe (fun _ _ _ => derives_of_parseline) hcmd
    rw [length_append] at hrounds hfuel
    refine andThen_returns (parseback_returns _ (by omega)) fun cmd' ts'' hback => ?_
    obtain ⟨k, rfl, -⟩ := amps_of_parseback hback
    rw [length_append] at hrounds hfuel
    dsimp only
    split
    next hpeek =>
      obtain ⟨vs, rfl⟩ := (peek_semi ts'').mp hpeek
      rw [length_cons] at hrounds hfuel
      exact andThen_returns (ih vs (by omega) (by omega)) fun right s _ => nofun
    next => exact nofun

end Termination

end Shell
end Xv6
