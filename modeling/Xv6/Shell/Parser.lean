import Mathlib.Tactic
import Xv6.Lib.Cstring

/-!
# The parser of the shell

The parser of `sh.c` goes through the line with a cursor that only `peek` and `gettoken` move.
The functions of the parser are written over these two, so that the same functions run on a
line and on a list of tokens.  A command refers to the words of the line by the positions of
their first byte and of the byte behind them, where `nulterminate` writes a zero afterwards.

Main definitions:

- {lit}`gettoken`, {lit}`peek`: the lexer on a line.
- {lit}`parseline`, {lit}`parsepipe`, {lit}`parseexec`, {lit}`parseblock`,
  {lit}`parseredirs`: the parser.
- {lit}`nulterminate`, {lit}`parsecmd`.
-/

namespace Xv6
namespace Shell

open Lib

/-- `MAXARGS`. -/
def maxargs : Nat := 10

/-! ## Commands -/

/-- The two pointers to a word: `[q, eq)`. -/
structure Tok where
  q : Nat
  eq : Nat
  deriving DecidableEq

/-- What a `redircmd` says about a file. -/
structure Redir where
  file : Tok
  mode : Nat
  fd : Nat
  deriving DecidableEq

/-- A parsed command. -/
inductive Cmd where
  | exec (argv : List Tok)
  | redir (cmd : Cmd) (r : Redir)
  | pipe (left right : Cmd)
  | list (left right : Cmd)
  | back (cmd : Cmd)
  deriving DecidableEq

/-- Wrap redirections around a command, the first one innermost. -/
def Cmd.wrap (cmd : Cmd) (rs : List Redir) : Cmd := rs.foldl .redir cmd

/-! ## The lexer -/

/-- The bytes of `whitespace`. -/
def isSpace (c : UInt8) : Bool := c ∈ [32, 9, 13, 10, 11]

/-- The bytes of `symbols`. -/
def isSymbol (c : UInt8) : Bool := c ∈ [60, 124, 62, 38, 59, 40, 41]

/-- The bytes that words are made of. -/
def isWord (c : UInt8) : Bool := !isSpace c && !isSymbol c

/-- `while (s < es && p(*s)) s++`. -/
def skip (p : UInt8 → Bool) (line : List UInt8) (s : Nat) : Nat :=
  s + ((line.drop s).takeWhile p).length

/-- `*s`; the line is followed by its terminator. -/
def byteAt (line : List UInt8) (s : Nat) : UInt8 := line.getD s 0

/-- The token at `q`, where no white space stands: what `gettoken` returns for it, and its
end. -/
def scan (line : List UInt8) (q : Nat) : UInt8 × Nat :=
  let c := byteAt line q
  if c = 0 then (0, q)
  else if c ∈ [124, 40, 41, 59, 38, 60] then (c, q + 1)
  else if c = 62 then if byteAt line (q + 1) = 62 then (43, q + 2) else (62, q + 1)
  else (97, skip isWord line q)

/-- `gettoken`: its result, the token and the cursor. -/
def gettoken (line : List UInt8) (s : Nat) : UInt8 × Tok × Nat :=
  let q := skip isSpace line s
  let eq := (scan line q).2
  ((scan line q).1, ⟨q, eq⟩, skip isSpace line eq)

/-- `peek`: its result and the cursor. -/
def peek (line : List UInt8) (s : Nat) (toks : List UInt8) : Bool × Nat :=
  let s := skip isSpace line s
  (byteAt line s ≠ 0 && toks.contains (byteAt line s), s)

/-! ## The parser -/

/-- A cursor and the functions that move it. -/
structure Lexer (σ : Type) where
  peek : σ → List UInt8 → Bool × σ
  gettoken : σ → UInt8 × Tok × σ

/-- The lexer on a line. -/
def Lexer.ofLine (line : List UInt8) : Lexer Nat := ⟨Shell.peek line, Shell.gettoken line⟩

/-- A function of the parser returns something and the cursor, or panics. -/
abbrev Parsed (σ α : Type) : Type := Except String (α × σ)

/-- Go on with the result, from the cursor. -/
def Parsed.andThen {σ α β : Type} (r : Parsed σ α) (f : α → σ → Parsed σ β) : Parsed σ β :=
  match r with
  | .error e => .error e
  | .ok (a, s) => f a s

/-- The mode and the file descriptor of a redirection. -/
def redirOf (tok : UInt8) (t : Tok) : Option Redir :=
  if tok = 60 then some ⟨t, 0x000, 0⟩
  else if tok = 62 then some ⟨t, 0x001 ||| 0x200 ||| 0x400, 1⟩
  else if tok = 43 then some ⟨t, 0x001 ||| 0x200, 1⟩
  else none

section Parser

variable {σ : Type} (L : Lexer σ)

/-- `parseredirs`, which adds redirections to those that are around the command already. -/
def parseredirs : (fuel : Nat) → List Redir → σ → Parsed σ (List Redir)
  | 0, _, _ => .error "loop"
  | fuel + 1, rs, s =>
    let p := L.peek s [60, 62]
    if p.1 then
      let op := L.gettoken p.2
      let file := L.gettoken op.2.2
      if file.1 ≠ 97 then .error "missing file for redirection"
      else parseredirs fuel (rs ++ (redirOf op.1 file.2.1).toList) file.2.2
    else .ok (rs, p.2)

/-- The loop of `parseexec`.  The redirections are around the command while its arguments are
added. -/
def parseargs (rounds : Nat) : (fuel : Nat) → List Tok → List Redir → σ →
    Parsed σ (List Tok × List Redir)
  | 0, _, _, _ => .error "loop"
  | fuel + 1, argv, rs, s =>
    let p := L.peek s [124, 41, 38, 59]
    if p.1 then .ok ((argv, rs), p.2)
    else
      let word := L.gettoken p.2
      if word.1 = 0 then .ok ((argv, rs), word.2.2)
      else if word.1 ≠ 97 then .error "syntax"
      else if (argv ++ [word.2.1]).length ≥ maxargs then .error "too many args"
      else
        (parseredirs L rounds rs word.2.2).andThen fun rs s =>
          parseargs rounds fuel (argv ++ [word.2.1]) rs s

/-- `parseblock`. -/
def parseblock (rounds : Nat) (parseline : σ → Parsed σ Cmd) (s : σ) : Parsed σ Cmd :=
  let p := L.peek s [40]
  if p.1 then
    (parseline (L.gettoken p.2).2.2).andThen fun cmd s =>
      let p := L.peek s [41]
      if p.1 then
        (parseredirs L rounds [] (L.gettoken p.2).2.2).andThen fun rs s => .ok (cmd.wrap rs, s)
      else .error "syntax - missing )"
  else .error "parseblock"

/-- `parseexec`. -/
def parseexec (rounds : Nat) (parseline : σ → Parsed σ Cmd) (s : σ) : Parsed σ Cmd :=
  let p := L.peek s [40]
  if p.1 then parseblock L rounds parseline p.2
  else
    (parseredirs L rounds [] p.2).andThen fun rs s =>
      (parseargs L rounds rounds [] rs s).andThen fun args s =>
        .ok ((Cmd.exec args.1).wrap args.2, s)

/-- `parsepipe`. -/
def parsepipe (rounds : Nat) (parseline : σ → Parsed σ Cmd) : (fuel : Nat) → σ → Parsed σ Cmd
  | 0, _ => .error "loop"
  | fuel + 1, s =>
    (parseexec L rounds parseline s).andThen fun cmd s =>
      let p := L.peek s [124]
      if p.1 then
        (parsepipe rounds parseline fuel (L.gettoken p.2).2.2).andThen fun right s =>
          .ok (.pipe cmd right, s)
      else .ok (cmd, p.2)

/-- The loop of `parseline`. -/
def parseback : (fuel : Nat) → Cmd → σ → Parsed σ Cmd
  | 0, _, _ => .error "loop"
  | fuel + 1, cmd, s =>
    let p := L.peek s [38]
    if p.1 then parseback fuel (.back cmd) (L.gettoken p.2).2.2
    else .ok (cmd, p.2)

/-- `parseline`. -/
def parseline (rounds : Nat) : (fuel : Nat) → σ → Parsed σ Cmd
  | 0, _ => .error "loop"
  | fuel + 1, s =>
    (parsepipe L rounds (fun s => parseline rounds fuel s) rounds s).andThen fun cmd s =>
      (parseback L rounds cmd s).andThen fun cmd s =>
        let p := L.peek s [59]
        if p.1 then
          (parseline rounds fuel (L.gettoken p.2).2.2).andThen fun right s =>
            .ok (.list cmd right, s)
        else .ok (cmd, p.2)

end Parser

/-! ## The whole line -/

/-- `nulterminate`: a zero behind every word that the command refers to. -/
def nulterminate (buf : Nat → UInt8) : Cmd → (Nat → UInt8)
  | .exec argv => argv.foldl (fun buf t => Function.update buf t.eq 0) buf
  | .redir cmd r => Function.update (nulterminate buf cmd) r.file.eq 0
  | .pipe left right => nulterminate (nulterminate buf left) right
  | .list left right => nulterminate (nulterminate buf left) right
  | .back cmd => nulterminate buf cmd

/-- `parsecmd`, for a line that stands in the memory `buf`: the command and the memory. -/
def parsecmd (line : List UInt8) (buf : Nat → UInt8) : Except String (Cmd × (Nat → UInt8)) :=
  let rounds := line.length + 1
  match parseline (Lexer.ofLine line) rounds rounds 0 with
  | .error e => .error e
  | .ok (cmd, s) =>
    if (peek line s []).2 ≠ line.length then .error "syntax"
    else .ok (cmd, nulterminate buf cmd)

end Shell
end Xv6
