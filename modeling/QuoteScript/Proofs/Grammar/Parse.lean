import Mathlib.Data.List.TakeWhile
import QuoteScript.Proofs.Grammar.Completeness
import QuoteScript.Proofs.Grammar.Ending
import QuoteScript.Proofs.Grammar.Soundness

/-!
# `QuoteScript.Proofs.Grammar.Parse`: the parser and the grammar

The tokens in front of the first end-of-text token are the text of a
program. If parsing finds nothing wrong, the grammar derives them from
the program that is returned. If the grammar derives them from some
program, with a semicolon behind every statement but the last one of
each list, parsing finds nothing wrong and returns this program.

* `derives_of_parseTokens` and `parseTokens_of_derives`: the two
  directions.
* `parseTokens_sound_and_complete`: both together.
* `Derives.program_unique`: with its semicolons, a text has only one
  derivation.
-/

set_option autoImplicit false

namespace QuoteScript

open Reader

/-- A reader at the end of its list stands on no token of a text, and
has none left. -/
theorem ahead_eq_nil_of_endsStatements {tokens ts : List Token} {c : Cursor}
    (htext : tokens.takeWhile (·.kind != .eof) = ts ++ c.ahead)
    (hend : endsStatements false c.current.kind = true) : c.ahead = [] := by
  cases hahead : c.ahead with
  | nil => rfl
  | cons t rest =>
      have hmem : t ∈ tokens.takeWhile (·.kind != .eof) := by
        rw [htext, hahead]
        exact List.mem_append_right _ List.mem_cons_self
      -- The text is cut at its first `eof`, so none of its tokens is one.
      have hne := List.mem_takeWhile_imp hmem
      rw [bne_iff_ne] at hne
      have hcurrent : c.current = t := by rw [Cursor.current, hahead]; rfl
      rw [hcurrent, endsStatements, Bool.false_and, Bool.or_false] at hend
      exact absurd (eq_of_beq hend) hne

/-- Tokens without an end-of-text token are all in front of one. -/
theorem takeWhile_ne_eof {ts : List Token} (hts : ∀ t ∈ ts, t.kind ≠ .eof) :
    ts.takeWhile (·.kind != .eof) = ts :=
  List.takeWhile_eq_self_iff.mpr fun t ht => bne_iff_ne.mpr (hts t ht)

/-- Without errors, the grammar derives the text from the program. -/
theorem derives_of_parseTokens {tokens : List Token} (h : (parseTokens tokens).errors = []) :
    Derives false (.stmts (parseTokens tokens).program)
      (tokens.takeWhile (·.kind != .eof)) := by
  have hends := program_endsFrom tokens
  have hfaithful := faithful_statements (sound_readExpr (tokens.length + 1)) false
    (tokens.length + 1) (Cursor.closed_ofTokens tokens)
  change (Reader.program (tokens.length + 1) (Cursor.ofTokens tokens)).Faithful _ at hfaithful
  unfold parseTokens at h ⊢
  cases hrun : Reader.program (tokens.length + 1) (Cursor.ofTokens tokens) with
  | exhausted =>
      rw [hrun] at hends
      exact hends.elim
  | failed c found =>
      rw [hrun] at h hfaithful
      exact absurd h hfaithful
  | done program c found =>
      rw [hrun] at h hfaithful
      obtain ⟨-, hend, ts, hahead, hbody⟩ := hfaithful h
      -- Outside of blocks nothing but the end of the text ends a list of statements.
      have htext : tokens.takeWhile (·.kind != .eof) = ts := by
        rw [ahead_eq_nil_of_endsStatements hahead hend, List.append_nil] at hahead
        exact hahead
      rw [htext]
      exact hbody

/-- The same for a list of tokens that are all read. -/
theorem derives_of_clean {ts : List Token} (hts : ∀ t ∈ ts, t.kind ≠ .eof)
    (h : (parseTokens ts).errors = []) : Derives false (.stmts (parseTokens ts).program) ts := by
  have hderives := derives_of_parseTokens h
  rwa [takeWhile_ne_eof hts] at hderives

/-- A text that the grammar derives from a program is read as the
program. -/
theorem parseTokens_of_derives (tokens : List Token) {program : Program}
    (h : Derives true (.stmts program) (tokens.takeWhile (·.kind != .eof))) :
    parseTokens tokens = ⟨program, []⟩ := by
  have hend : endsStatements false (Cursor.finalOf tokens).kind = true := by
    have hclosed : (Cursor.finalOf tokens).kind = .eof := Cursor.closed_ofTokens tokens
    rw [hclosed]
    rfl
  have hlen : (Cursor.ofTokens tokens).ahead.length < tokens.length + 1 :=
    Nat.lt_succ_of_le (List.takeWhile_sublist _).length_le
  -- Nothing follows the program but the token that closes the text.
  have hrun := h.read (Cursor.finalOf tokens) (tokens.length + 1) (tokens.length + 1) false []
  rw [List.append_nil] at hrun
  have hrun := hrun hend hlen hlen
  unfold parseTokens Reader.program Cursor.ofTokens
  rw [hrun]

/-- With a semicolon behind every statement but the last one of each
list, the grammar is unambiguous, down to the tokens of the tree. -/
theorem Derives.program_unique {program program' : Program} {ts : List Token}
    (h : Derives true (.stmts program) ts) (h' : Derives true (.stmts program') ts) :
    program = program' := by
  -- The parser is a function, and it finds every derivation.
  have hts := takeWhile_ne_eof h.ne_eof
  rw [← hts] at h h'
  have hparse := parseTokens_of_derives ts h
  rw [parseTokens_of_derives ts h'] at hparse
  exact congrArg Parsed.program hparse.symm

/-- Parsing is sound and complete for the grammar. Without errors, the
grammar derives the text from the program that is returned; and if it
derives the text from a program with a semicolon behind every statement
but the last one of each list, this program is returned, without
errors. -/
theorem parseTokens_sound_and_complete (tokens : List Token) :
    ((parseTokens tokens).errors = [] →
        Derives false (.stmts (parseTokens tokens).program)
          (tokens.takeWhile (·.kind != .eof))) ∧
      ∀ program, Derives true (.stmts program) (tokens.takeWhile (·.kind != .eof)) →
        parseTokens tokens = ⟨program, []⟩ :=
  ⟨derives_of_parseTokens, fun _ => parseTokens_of_derives tokens⟩

/-- Both directions at work on `a - b - c`, which groups from the
left. -/
theorem parseTokens_differences :
    let a : Token := ⟨.ident, "a", ⟨0, 1⟩⟩
    let minus : Token := ⟨.minus, "-", ⟨2, 3⟩⟩
    let b : Token := ⟨.ident, "b", ⟨4, 5⟩⟩
    let minus' : Token := ⟨.minus, "-", ⟨6, 7⟩⟩
    let c : Token := ⟨.ident, "c", ⟨8, 9⟩⟩
    let tokens := [a, minus, b, minus', c, .eof 9]
    let program : Program :=
      [.expr a (.binary minus' .subtract
        (.binary minus .subtract (.ident a "a") (.ident b "b")) (.ident c "c"))]
    (parseTokens tokens).errors = [] ∧
      Derives false (.stmts (parseTokens tokens).program) [a, minus, b, minus', c] ∧
      Derives true (.stmts program) [a, minus, b, minus', c] ∧
      parseTokens tokens = ⟨program, []⟩ := by
  intro a minus b minus' c tokens program
  have herrors : (parseTokens tokens).errors = [] := by rfl
  have hinner : Derives true (.expr .sum (.binary minus .subtract (.ident a "a") (.ident b "b")))
      ([a] ++ minus :: [b]) :=
    .binary (show minus.kind = BinaryOp.subtract.tokenKind from rfl)
      ((Derives.ident rfl).loosen (by decide)) ((Derives.ident rfl).loosen (by decide))
  have hsum := Derives.binary (show minus'.kind = BinaryOp.subtract.tokenKind from rfl) hinner
    ((Derives.ident (t := c) rfl).loosen (by decide))
  -- The outer difference has the inner one on its left: a sum is loosened on that side only.
  have hderives : Derives true (.stmts program) [a, minus, b, minus', c] :=
    .noSemicolon (fun _ => rfl) (.expr (hsum.loosen (by decide))) .noStmts
  have hparse := parseTokens_sound_and_complete tokens
  exact ⟨herrors, hparse.1 herrors, hderives, hparse.2 program hderives⟩

end QuoteScript
