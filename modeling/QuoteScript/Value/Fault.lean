import QuoteScript.Text.Decimal
import QuoteScript.Tree.Basic
import QuoteScript.Value.Kind
import QuoteScript.Value.Native

/-!
# `QuoteScript.Value.Fault`: what can go wrong in a run

A fault is a value like any other, except that it unwinds: whatever
is being evaluated is abandoned, and the fault becomes the answer of
the whole run. It says what went wrong; `Fault.message` says it in
words.
-/

set_option autoImplicit false

namespace QuoteScript

/-- The things that can go wrong in a run. -/
inductive Fault where
  /-- A name that no scope binds. -/
  | unboundName (name : String)
  /-- An operator that its operand does not have. -/
  | unknownUnary (op : UnaryOp) (operand : ValueKind)
  /-- An operator that its operands, of one kind, do not have. -/
  | unknownBinary (op : BinaryOp) (operands : ValueKind)
  /-- Operands of two different kinds. -/
  | typeMismatch (op : BinaryOp) (left right : ValueKind)
  /-- A division by zero. -/
  | divisionByZero (dividend : Int64)
  /-- A dict key that is no integer, boolean or string. -/
  | unusableKey (kind : ValueKind)
  /-- An index into something that has no elements. -/
  | notIndexable (kind : ValueKind)
  /-- A call of something that is no function. -/
  | notCallable (kind : ValueKind)
  /-- A call with the wrong number of arguments. -/
  | wrongArgumentCount (got want : Nat)
  /-- The length of something that has none. -/
  | noLength (kind : ValueKind)
  /-- A native function of arrays on something else. -/
  | notAnArray (callee : Native) (kind : ValueKind)
  /-- A fault with a wording of its own. -/
  | raised (text : String)
  deriving DecidableEq, Repr

/-- What went wrong, in words. -/
def Fault.message : Fault → String
  | unboundName name => "Identifier not found: " ++ name
  | unknownUnary op operand => "Unknown operator: " ++ op.text ++ operand.tag
  | unknownBinary op operands =>
    "Unknown operator: " ++ operands.tag ++ " " ++ op.text ++ " " ++ operands.tag
  | typeMismatch op left right =>
    "Type mismatch: " ++ left.tag ++ " " ++ op.text ++ " " ++ right.tag
  | divisionByZero dividend => "Division by zero: " ++ Text.writeInt dividend ++ " / 0"
  | unusableKey kind => "Unusable as hash key: " ++ kind.tag
  | notIndexable kind => "Index operator not supported: " ++ kind.tag
  | notCallable kind => "Not a function: " ++ kind.tag
  | wrongArgumentCount got want =>
    "Wrong number of arguments. got=" ++ got.repr ++ ", want=" ++ want.repr
  | noLength kind => "Argument to `len` not supported, got " ++ kind.tag
  | notAnArray callee kind =>
    "Argument to `" ++ callee.name ++ "` must be ARRAY, got " ++ kind.tag
  | raised text => text

end QuoteScript
