import QuoteScript.Grammar.Expression
import QuoteScript.Token.Scan

/-!
# `QuoteScript.Grammar.Program`: from source text to programs

A program is read to its end whatever is wrong with it. What comes
back is the statements that could be read, and everything that was
found wrong, in source order.

* `parseTokens` reads a list of tokens, `parse` a source text.
-/

set_option autoImplicit false

namespace QuoteScript

/-- What was read from a text: the statements, and what is wrong with
the text. -/
structure Parsed where
  program : Program
  errors : List Diagnostic

/-- Reads a whole program, in at most as many nested steps as are
given. -/
def Reader.program (steps : Nat) : Reader Program :=
  statements false (statement (readExpr steps)) steps

/-- Reads the program that a list of tokens stands for. Tokens behind
an end-of-text token do not count. -/
def parseTokens (tokens : List Token) : Parsed :=
  match Reader.program (tokens.length + 1) (Cursor.ofTokens tokens) with
  | .done program _ errors => ⟨program, errors⟩
  -- Neither of these two comes about: `Reader.program` never fails, and the steps are enough.
  | .failed _ errors => ⟨[], errors⟩
  | .exhausted => ⟨[], []⟩

/-- Reads the program that a source text stands for. -/
def parse (source : String) : Parsed :=
  parseTokens (tokenize source)

end QuoteScript
