import QuoteScript.Text.Quoted
import QuoteScript.Token.Basic

/-!
# `QuoteScript.Grammar.Diagnostic`: syntax errors

A diagnostic says what the grammar found wrong at which token. Reading
goes on behind a broken statement, so one text may have many.
-/

set_option autoImplicit false

namespace QuoteScript

/-- What is wrong with a token. -/
inductive Diagnostic where
  /-- A token of one kind was due, and one of another kind stands
  there. -/
  | unexpectedToken (expected found : TokenKind) (span : Span)
  /-- An expression was due, and no expression starts with this
  token. -/
  | noExpression (found : TokenKind) (span : Span)
  /-- The literal of an integer token is no 64-bit integer. -/
  | invalidInteger (literal : String) (span : Span)
  deriving DecidableEq, Repr

namespace Diagnostic

/-- The place of the token that is at fault. -/
def span : Diagnostic → Span
  | unexpectedToken _ _ span | noExpression _ span | invalidInteger _ span => span

/-- The diagnostic in words. -/
def message : Diagnostic → String
  | unexpectedToken expected found _ =>
    "expected next token to be " ++ expected.text ++ ", got " ++ found.text ++ " instead"
  | noExpression found _ => "no prefix parse function for " ++ found.text ++ " found"
  | invalidInteger literal _ => "could not parse " ++ Text.shown literal ++ " as integer"

end Diagnostic

end QuoteScript
