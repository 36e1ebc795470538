/-!
# `QuoteScript.Value.Kind`: the kinds of value

Every value has a kind. Its tag is what a program sees of it and what
messages call it.
-/

set_option autoImplicit false

namespace QuoteScript

/-- The kinds of value. -/
inductive ValueKind where
  | integer
  | boolean
  | null
  | string
  | array
  | dict
  | function
  | native
  | macroRule
  | quote
  | returned
  | fault
  deriving DecidableEq, Repr

/-- The name of a kind in programs and in messages. -/
def ValueKind.tag : ValueKind → String
  | integer => "INTEGER"
  | boolean => "BOOLEAN"
  | null => "NULL"
  | string => "STRING"
  | array => "ARRAY"
  | dict => "DICT"
  | function => "FUNCTION"
  | native => "BUILTIN"
  | macroRule => "MACRO"
  | quote => "QUOTE"
  | returned => "RETURN_VALUE"
  | fault => "ERROR"

end QuoteScript
