import QuoteScript.Eval.Monad
import QuoteScript.Tree.Transform

/-!
# `QuoteScript.Eval.Quotation`: quotes and what is spliced into them

`quote(e)` is the tree `e`, not evaluated. Inside it, a call written
`unquote(e')` with one argument is evaluated, and its value is spliced
in as a tree where the call stood. The quoted tree is walked over from
the bottom up, so an inner call is spliced before the call around it
is evaluated.

Booleans, integers and quotes have a tree. A call whose value has none
stays as it is. A tree made for a value takes the place of the call in
the source; a quoted tree keeps its own places.

Integer literals are never negative, so a negative integer is spliced
as the negation of a literal. The smallest one is no negation of a
64-bit literal and is written as a difference.
-/

set_option autoImplicit false

namespace QuoteScript

/-- The argument of a call that quotes: one argument, and the name
`quote` in front. -/
def quotedArgument? (callee : Expr) (args : List Expr) : Option Expr :=
  match callee, args with
  | .ident _ name, [arg] => if name = "quote" then some arg else none
  | _, _ => none

/-- The span and the argument of a call that splices: one argument, and
a callee that is written `unquote`. -/
def unquotedArgument? : Node → Option (Span × Expr)
  | .expr (.call token callee [arg]) =>
    -- The token of the callee decides, whatever kind of node the callee is.
    if callee.token.literal = "unquote" then some (token.span, arg) else none
  | _ => none

/-- The opposite of a negative integer. It has to be a 64-bit integer
itself. -/
def opposite (n : Int64) : EvalM Int64 :=
  if n = Int64.minValue then EvalM.defect .negationOverflow else pure (-n)

/-- The tree of an integer, placed at `span`. -/
def spliceInt (n : Int64) (span : Span) : EvalM Expr := do
  if 0 ≤ n then
    return .mkInt n span
  else if n = Int64.minValue then
    -- The opposite of the smallest integer is no 64-bit integer.
    let largest := Expr.mkUnary .negate (.mkInt Int64.maxValue span) span
    return .mkBinary .subtract largest (.mkInt 1 span) span
  else
    return .mkUnary .negate (.mkInt (← opposite n) span) span

/-- The tree of a value, if it has one. What is made for the value is
placed at `span`. -/
def spliceValue (v : Value) (span : Span) : EvalM (Option Node) := do
  match v with
  | .bool b => return some (.expr (.mkBool b span))
  | .int n => return some (.expr (← spliceInt n span))
  -- A quoted tree keeps its places, so `span` plays no part here.
  | .quote _ node => return some node
  -- Strings, arrays, dicts, closures, natives, null and faults have no tree.
  | _ => return none

/-- Evaluates a call that splices, and leaves every other node as it
is. -/
def spliceCall (eval : Expr → EvalM Value) (node : Node) : EvalM Node := do
  match unquotedArgument? node with
  | none => return node
  | some (span, arg) =>
    -- A pending `return` ends here, and the walk goes on behind the call.
    let v ← eval arg
    return (← spliceValue v.unwrapReturn span).getD node

/-- Quotes a tree: splices every call in it that splices, and wraps
what comes out. -/
def quoteNode (eval : Expr → EvalM Value) (node : Node) : EvalM Value := do
  let node ← node.transformM (spliceCall eval)
  EvalM.newQuote node

end QuoteScript
