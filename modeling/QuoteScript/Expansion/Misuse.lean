import QuoteScript.Value.Kind

/-!
# `QuoteScript.Expansion.Misuse`: calls of macros that cannot be expanded

A misuse is not a value: no program sees it. It ends the expansion, and
the one who asked for the expansion gets it back.
-/

set_option autoImplicit false

namespace QuoteScript

/-- What is wrong with a call of a macro. -/
inductive Misuse where
  /-- The body gave a value that is no quote. -/
  | notAQuote (name : String) (found : ValueKind)
  /-- The body ended in a fault. -/
  | evaluation (name : String) (message : String)
  /-- The call has the wrong number of arguments. -/
  | wrongArgumentCount (name : String) (want got : Nat)
  deriving DecidableEq, Repr

/-- What is wrong with a call of a macro, in words. -/
def Misuse.message : Misuse → String
  | notAQuote name found =>
    "macro `" ++ name ++ "` returned " ++ found.tag ++
      ", but macros may only return quoted AST nodes"
  | evaluation name message => "macro `" ++ name ++ "` failed while expanding: " ++ message
  | wrongArgumentCount name want got =>
    "macro `" ++ name ++ "` takes " ++ want.repr ++ " arguments, got " ++ got.repr

end QuoteScript
