import Mathlib.Tactic
import Xv6.Lib.Cstring
import Xv6.Shell.Grammar

/-!
# Parsing a line

`parsecmd` parses a line where it stands in memory, and `nulterminate` then ends each word of
the command with a zero, in place of the byte behind it.

Main results:

- Theorem {lit}`parsecmd_iff_derives`: `parsecmd` returns the command of the derivation, or
  panics.
- Theorem {lit}`nulterminate_strings`: afterwards every word of the command is a string.
-/

namespace Xv6
namespace Shell

open List Lib Function

variable {line : List UInt8} {buf buf' : Nat → UInt8} {cmd : Cmd} {t : Tok} {ts : List Token}

/-! ## From tokens to lines -/

theorem length_lex_le (pos : Nat) (bytes : List UInt8) :
    (lex pos bytes).length ≤ bytes.length := by
  induction pos, bytes using lex.induct with
  | case1 pos =>
    rw [lex_nil]
    exact le_rfl
  | case2 pos c rest hspace ih =>
    rw [lex, if_pos hspace, length_cons]
    omega
  | case3 pos c rest hspace hsymbol happend ih =>
    rw [length_tail] at ih
    rw [lex, if_neg hspace, if_pos hsymbol, if_pos happend, length_cons, length_cons]
    omega
  | case4 pos c rest hspace hsymbol happend ih =>
    rw [lex, if_neg hspace, if_pos hsymbol, if_neg happend, length_cons, length_cons]
    omega
  | case5 pos c rest hspace hsymbol ih =>
    have hle := (dropWhile_sublist isWord (l := rest)).length_le
    rw [lex, if_neg hspace, if_neg hsymbol, length_cons, length_cons]
    omega

/-- The last `peek` of `parsecmd` finds out whether tokens are left. -/
theorem peek_eq_length_iff (hnul : 0 ∉ line) {s : Nat} (hs : s ≤ line.length) :
    (peek line s []).2 = line.length ↔ lex s (line.drop s) = [] := by
  change skip isSpace line s = line.length ↔ _
  rw [← lex_skip]
  constructor
  · intro hend
    rw [hend, drop_length, lex_nil]
  · intro hlex
    rcases end_or_found hnul s with hdrop | ⟨token, hfound⟩
    · exact le_antisymm (skip_le isSpace hs) (drop_eq_nil_iff.mp hdrop)
    · rw [hfound.lex] at hlex
      exact nomatch hlex

/-- `parsecmd` in terms of the tokens of the line. -/
theorem parsecmd_eq (hnul : 0 ∉ line) (buf : Nat → UInt8) :
    parsecmd line buf =
      match parseline .ofTokens (line.length + 1) (line.length + 1) (tokens line) with
      | .error e => .error e
      | .ok (cmd, ts) => if ts = [] then .ok (cmd, nulterminate buf cmd) else .error "syntax" := by
  have hsame := (sim_line hnul).parseline (line.length + 1) (line.length + 1)
    (⟨Nat.zero_le _, rfl⟩ : 0 ≤ line.length ∧ lex 0 (line.drop 0) = tokens line)
  rw [parsecmd]
  generalize parseline (Lexer.ofLine line) (line.length + 1) (line.length + 1) 0 = r at hsame ⊢
  generalize parseline .ofTokens (line.length + 1) (line.length + 1) (tokens line) = r' at hsame ⊢
  match r, r', hsame with
  | .error e, .error _, hsame => exact congrArg Except.error hsame
  | .ok (cmd, s), .ok (_, ts), hsame =>
    obtain ⟨rfl, hs, rfl⟩ := hsame
    dsimp only
    rw [ite_not]
    exact if_congr (peek_eq_length_iff hnul hs) rfl rfl

theorem parsecmd_eq_ok_iff (hnul : 0 ∉ line) :
    parsecmd line buf = .ok (cmd, buf') ↔
      Derives .line (tokens line) cmd ∧ buf' = nulterminate buf cmd := by
  rw [parsecmd_eq hnul]
  constructor
  · intro h
    split at h
    next => exact nomatch h
    next cmd' ts hline =>
      split at h
      next hts =>
        cases h
        obtain ⟨us, hus, hderives⟩ := derives_of_parseline hline
        rw [hts, append_nil] at hus
        exact ⟨hus ▸ hderives, rfl⟩
      next => exact nomatch h
  · rintro ⟨hderives, rfl⟩
    have hlen : (tokens line).length < line.length + 1 := Nat.lt_succ_of_le (length_lex_le 0 line)
    have hline := parse_of_derives hderives [] (fun t ht => nomatch ht) hlen _ hlen
    rw [append_nil] at hline
    rw [hline]
    rfl

/-- `parsecmd` returns the command of the line's only derivation, and panics if there is none.
The words of the line are its maximal runs of bytes that are neither white space nor symbols. -/
theorem parsecmd_iff_derives (line : List UInt8) (buf : Nat → UInt8) (hnul : 0 ∉ line) :
    (∀ cmd, (∃ buf', parsecmd line buf = .ok (cmd, buf')) ↔ Derives .line (tokens line) cmd) ∧
      (∀ cmd cmd', Derives .line (tokens line) cmd → Derives .line (tokens line) cmd' →
        cmd = cmd') ∧
      ((∀ cmd, ¬Derives .line (tokens line) cmd) →
        ∃ message, message ≠ "loop" ∧ parsecmd line buf = .error message) ∧
      ∀ t, .word t ∈ tokens line → Maximal line t := by
  refine ⟨fun cmd => ?_, fun cmd cmd' h h' => ?_, fun hnone => ?_, fun t ht => ?_⟩
  · constructor
    · rintro ⟨buf', h⟩
      exact ((parsecmd_eq_ok_iff hnul).mp h).1
    · intro h
      exact ⟨_, (parsecmd_eq_ok_iff hnul).mpr ⟨h, rfl⟩⟩
  · -- both are what the parser returns
    have hcmd : parsecmd line buf = .ok (cmd, nulterminate buf cmd) :=
      (parsecmd_eq_ok_iff hnul).mpr ⟨h, rfl⟩
    rw [(parsecmd_eq_ok_iff hnul).mpr ⟨h', rfl⟩] at hcmd
    exact (Prod.mk.inj (Except.ok.inj hcmd)).1.symm
  · have hlen : (tokens line).length < line.length + 1 := Nat.lt_succ_of_le (length_lex_le 0 line)
    have hreturns := parseline_returns (tokens line) hlen hlen
    cases hparse : parsecmd line buf with
    | ok r => exact absurd ((parsecmd_eq_ok_iff hnul).mp hparse).1 (hnone r.1)
    | error message =>
      refine ⟨message, ?_, rfl⟩
      rintro rfl
      rw [parsecmd_eq hnul] at hparse
      split at hparse
      next e hline => exact hreturns (hline.trans (congrArg _ (Except.error.inj hparse)))
      next =>
        split at hparse
        next => exact nomatch hparse
        next => exact absurd (Except.error.inj hparse) (by decide)
  · exact maximal_of_mem_lex 0 line [] rfl (fun c d hc _ _ => nomatch hc) ht

/-- The line `a>b|c&`. -/
theorem parsecmd_iff_derives_pipe : ∃ buf',
    parsecmd [97, 62, 98, 124, 99, 38] (fun _ => 0) =
      .ok (.back (.pipe (.redir (.exec [⟨0, 1⟩]) ⟨⟨2, 3⟩, 0x601, 1⟩) (.exec [⟨4, 5⟩])), buf') ∧
    Derives .line (tokens [97, 62, 98, 124, 99, 38])
      (.back (.pipe (.redir (.exec [⟨0, 1⟩]) ⟨⟨2, 3⟩, 0x601, 1⟩) (.exec [⟨4, 5⟩]))) := by
  have hcmd : (parsecmd [97, 62, 98, 124, 99, 38] (fun _ => 0)).map Prod.fst =
      .ok (.back (.pipe (.redir (.exec [⟨0, 1⟩]) ⟨⟨2, 3⟩, 0x601, 1⟩) (.exec [⟨4, 5⟩]))) := by
    decide +kernel
  have hiff := (parsecmd_iff_derives [97, 62, 98, 124, 99, 38] (fun _ => 0) (by decide)).1
  cases hrun : parsecmd [97, 62, 98, 124, 99, 38] (fun _ => 0) with
  | error e =>
    rw [hrun] at hcmd
    cases hcmd
  | ok r =>
    rw [hrun] at hcmd
    obtain ⟨cmd, buf'⟩ := r
    cases hcmd
    exact ⟨buf', rfl, (hiff _).mp ⟨buf', hrun⟩⟩

/-! ## The words of a command -/

/-- The arguments and the files that a command refers to. -/
def Cmd.toks : Cmd → List Tok
  | .exec argv => argv
  | .redir cmd r => cmd.toks ++ [r.file]
  | .pipe left right => left.toks ++ right.toks
  | .list left right => left.toks ++ right.toks
  | .back cmd => cmd.toks

theorem toks_wrap (cmd : Cmd) (rs : List Redir) :
    (cmd.wrap rs).toks = cmd.toks ++ rs.map Redir.file := by
  induction rs generalizing cmd with
  | nil => exact (append_nil _).symm
  | cons r rs ih =>
    refine (ih (.redir cmd r)).trans ?_
    rw [Cmd.toks, append_assoc]
    rfl

theorem toks_back (cmd : Cmd) (k : Nat) : (Cmd.back^[k] cmd).toks = cmd.toks := by
  induction k generalizing cmd with
  | zero => rfl
  | succ k ih => exact ih (.back cmd)

theorem word_of_mem_redirs {rs : List Redir} (h : Redirs ts rs) (ht : t ∈ rs.map Redir.file) :
    Token.word t ∈ ts := by
  induction h with
  | nil => exact absurd ht not_mem_nil
  | @cons op w r ts rs hop h ih =>
    have hfile : r.file = w := by
      cases op with
      | lt | gt | append =>
        cases hop
        rfl
      | _ => exact nomatch (hop : none = some r)
    rw [map_cons, mem_cons, hfile] at ht
    rcases ht with rfl | ht
    · exact mem_cons_of_mem _ mem_cons_self
    · exact mem_cons_of_mem _ (mem_cons_of_mem _ (ih ht))

theorem word_of_mem_args {argv : List Tok} {rs : List Redir} (h : Args ts argv rs)
    (ht : t ∈ argv ∨ t ∈ rs.map Redir.file) : Token.word t ∈ ts := by
  induction h with
  | nil => exact absurd ht (by simp)
  | @cons w us ts argv rs rs' hrs h ih =>
    rw [mem_cons, map_append, mem_append] at ht
    rw [mem_cons, mem_append]
    rcases ht with (rfl | ht) | ht | ht
    · exact Or.inl rfl
    · exact Or.inr (Or.inr (ih (Or.inl ht)))
    · exact Or.inr (Or.inl (word_of_mem_redirs hrs ht))
    · exact Or.inr (Or.inr (ih (Or.inr ht)))

/-- A command refers to words that it was derived from. -/
theorem word_of_mem_toks {X : Phrase} (h : Derives X ts cmd) (ht : t ∈ cmd.toks) :
    Token.word t ∈ ts := by
  induction h with
  | @simple us ts argv rs rs' hrs hargs hmax =>
    rw [toks_wrap, Cmd.toks, map_append, mem_append, mem_append] at ht
    rw [mem_append]
    rcases ht with ht | ht | ht
    · exact Or.inr (word_of_mem_args hargs (Or.inl ht))
    · exact Or.inl (word_of_mem_redirs hrs ht)
    · exact Or.inr (word_of_mem_args hargs (Or.inr ht))
  | block h hrs ih =>
    rw [toks_wrap, mem_append] at ht
    rcases ht with ht | ht
    · exact mem_cons_of_mem _ (mem_append_left _ (ih ht))
    · exact mem_cons_of_mem _ (mem_append_right _ (mem_cons_of_mem _
        (word_of_mem_redirs hrs ht)))
  | single h ih => exact ih ht
  | pipe h h' ih ih' =>
    rcases mem_append.mp ht with ht | ht
    · exact mem_append_left _ (ih ht)
    · exact mem_append_right _ (mem_cons_of_mem _ (ih' ht))
  | last h k ih =>
    rw [toks_back] at ht
    exact mem_append_left _ (ih ht)
  | seq h k h' ih ih' =>
    rw [Cmd.toks, toks_back] at ht
    rcases mem_append.mp ht with ht | ht
    · exact mem_append_left _ (ih ht)
    · exact mem_append_right _ (mem_append_right _ (mem_cons_of_mem _ (ih' ht)))

/-! ## Zeros behind the words -/

/-- The zeros of one part of a command after those of another. -/
theorem ite_mem_append (xs ys : List Nat) (x : Nat) (b : UInt8) :
    (if x ∈ ys then 0 else if x ∈ xs then 0 else b) = if x ∈ xs ++ ys then 0 else b := by
  by_cases hx : x ∈ ys
  · rw [if_pos hx, if_pos (mem_append_right _ hx)]
  · rw [if_neg hx]
    exact if_congr (by simp [hx]) rfl rfl

theorem foldl_update_apply (argv : List Tok) (buf : Nat → UInt8) (x : Nat) :
    argv.foldl (fun buf t => update buf t.eq 0) buf x =
      if x ∈ argv.map Tok.eq then 0 else buf x := by
  induction argv generalizing buf with
  | nil => rfl
  | cons t argv ih =>
    rw [foldl_cons, ih, update_apply, map_cons, ← singleton_append,
      ← ite_mem_append]
    exact if_congr Iff.rfl rfl (if_congr mem_singleton.symm rfl rfl)

/-- `nulterminate` writes zeros behind the words, and nothing else. -/
theorem nulterminate_apply (cmd : Cmd) (buf : Nat → UInt8) (x : Nat) :
    nulterminate buf cmd x = if x ∈ cmd.toks.map Tok.eq then 0 else buf x := by
  induction cmd generalizing buf with
  | exec argv => exact foldl_update_apply argv buf x
  | redir cmd r ih =>
    rw [nulterminate, update_apply, ih, Cmd.toks, map_append, ← ite_mem_append]
    exact if_congr mem_singleton.symm rfl rfl
  | pipe left right ih ih' | list left right ih ih' =>
    rw [nulterminate, ih', ih, Cmd.toks, map_append, ← ite_mem_append]
  | back cmd ih => exact ih buf

/-- The bytes of a word in its line. -/
def text (line : List UInt8) (t : Tok) : List UInt8 := (line.drop t.q).take (t.eq - t.q)

/-- A word is made of bytes of words, and the byte behind it is none. -/
theorem Maximal.isWord_iff (h : Maximal line t) {x : Nat} {c : UInt8} (hge : t.q ≤ x)
    (hle : x ≤ t.eq)
    (hc : (line)[x]? = some c) : isWord c = true ↔ x < t.eq := by
  obtain ⟨u, w, v, rfl, rfl, -, hw, -, hv⟩ := h
  dsimp only at hge hle ⊢
  constructor
  · intro hword
    by_contra hend
    obtain rfl : x = u.length + w.length := by omega
    rw [getElem?_append_right (by simp), length_append, Nat.sub_self,
      ← head?_eq_getElem?] at hc
    rw [hv c hc] at hword
    exact Bool.noConfusion hword
  · intro hlt
    rw [getElem?_append_left (by simpa using hlt), getElem?_append_right hge] at hc
    exact hw c (mem_of_getElem? hc)

theorem Maximal.bounds (h : Maximal line t) : t.q < t.eq ∧ t.eq ≤ line.length := by
  obtain ⟨u, w, v, rfl, rfl, hne, -, -, -⟩ := h
  have hpos := length_pos_iff.mpr hne
  simp only [length_append]
  omega

/-- No word ends inside another. -/
theorem Maximal.separate {t' : Tok} (h : Maximal line t) (h' : Maximal line t') (hge : t.q ≤ t'.eq)
    (hlt : t'.eq < t.eq) : False := by
  have hlen : t'.eq < line.length := lt_of_lt_of_le hlt h.bounds.2
  have hbyte : (line)[t'.eq]? = some (line)[t'.eq] := getElem?_eq_getElem hlen
  have hword := (h.isWord_iff hge hlt.le hbyte).mpr hlt
  exact lt_irrefl _ ((h'.isWord_iff h'.bounds.1.le le_rfl hbyte).mp hword)

theorem Maximal.holds_text (h : Maximal line t) (hbuf : Holds buf 0 (line ++ [0])) :
    Holds buf t.q (text line t) ∧ t.q + (text line t).length = t.eq := by
  obtain ⟨u, w, v, rfl, rfl, -, -, -, -⟩ := h
  have htext : text (u ++ w ++ v) ⟨u.length, u.length + w.length⟩ = w := by
    simp [text]
  rw [htext]
  rw [append_assoc, append_assoc, holds_append, holds_append, Nat.zero_add] at hbuf
  exact ⟨hbuf.2.1, rfl⟩

/-- Once `parsecmd` has returned, every argument and every file of the command is a string with
the text of its word.  Zeros are written at the ends of words, and nowhere else: not inside a
word and not behind the line. -/
theorem nulterminate_strings (line : List UInt8) (buf buf' : Nat → UInt8) (cmd : Cmd)
    (hnul : 0 ∉ line) (hbuf : Holds buf 0 (line ++ [0]))
    (hparse : parsecmd line buf = .ok (cmd, buf')) :
    (∀ t ∈ cmd.toks, .word t ∈ tokens line ∧ t.eq ≤ line.length ∧
        cstr buf' (line.length + 1 - t.q) t.q = some (text line t)) ∧
      ∀ x, buf' x = if x ∈ cmd.toks.map Tok.eq then 0 else buf x := by
  obtain ⟨hderives, rfl⟩ := (parsecmd_eq_ok_iff hnul).mp hparse
  have hmaximal : ∀ t ∈ cmd.toks, Maximal line t := fun t ht =>
    maximal_of_mem_lex 0 line [] rfl (fun c d hc _ _ => nomatch hc) (word_of_mem_toks hderives ht)
  refine ⟨fun t ht => ⟨word_of_mem_toks hderives ht, (hmaximal t ht).bounds.2, ?_⟩,
    nulterminate_apply cmd buf⟩
  obtain ⟨htext, hlen⟩ := (hmaximal t ht).holds_text hbuf
  have hbounds := (hmaximal t ht).bounds
  have hnul' : 0 ∉ text line t := fun hmem =>
    hnul (mem_of_mem_drop (mem_of_mem_take hmem))
  refine cstr_of_holds hnul' (by omega)
    (holds_append.mpr ⟨htext.congr fun x hge hlt => ?_, ?_, trivial⟩)
  · rw [nulterminate_apply, if_neg]
    intro hx
    obtain ⟨t', ht', rfl⟩ := mem_map.mp hx
    exact (hmaximal t ht).separate (hmaximal t' ht') hge (by omega)
  · rw [hlen, nulterminate_apply, if_pos (mem_map_of_mem ht)]

/-- `ls>f`: the zero behind `ls` takes the place of the symbol. -/
theorem nulterminate_strings_adjacent :
    (∀ t ∈ ((Cmd.exec [⟨0, 2⟩]).wrap [⟨⟨3, 4⟩, 0x601, 1⟩]).toks,
        .word t ∈ tokens [108, 115, 62, 102] ∧ t.eq ≤ 4 ∧
          cstr (nulterminate (store (fun _ => 0) 0 [108, 115, 62, 102, 0])
            ((Cmd.exec [⟨0, 2⟩]).wrap [⟨⟨3, 4⟩, 0x601, 1⟩])) (4 + 1 - t.q) t.q =
              some (text [108, 115, 62, 102] t)) ∧
      ∀ x, nulterminate (store (fun _ => 0) 0 [108, 115, 62, 102, 0])
          ((Cmd.exec [⟨0, 2⟩]).wrap [⟨⟨3, 4⟩, 0x601, 1⟩]) x =
        if x ∈ ((Cmd.exec [⟨0, 2⟩]).wrap [⟨⟨3, 4⟩, 0x601, 1⟩]).toks.map Tok.eq then 0
        else store (fun _ => 0) 0 [108, 115, 62, 102, 0] x :=
  nulterminate_strings [108, 115, 62, 102] (store (fun _ => 0) 0 [108, 115, 62, 102, 0]) _
    ((Cmd.exec [⟨0, 2⟩]).wrap [⟨⟨3, 4⟩, 0x601, 1⟩]) (by decide) holds_store rfl

end Shell
end Xv6
