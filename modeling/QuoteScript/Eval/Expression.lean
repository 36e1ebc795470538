import QuoteScript.Eval.Operators
import QuoteScript.Eval.Quotation

/-!
# `QuoteScript.Eval.Expression`: evaluation

An expression is evaluated in a scope, its parts from left to right.
When a part unwinds, nothing to the right of it is evaluated, and its
value is the value of the whole.

Statements are evaluated in the same scope one after the other, also
those of a branch. The value of a block is that of its last statement,
if that has one; a `let` has none. A call evaluates the body of the
closure in a scope of its own, made inside the scope of the closure,
and takes the value of a pending `return`.

Statements, blocks and calls are given an evaluator for expressions.
`evalExpr` ties the knot by counting down fuel: one unit for each
level of nesting, of expressions and of calls.

* `evalExpr` evaluates an expression, `evalProgram` a program and
  `evalNode` any node.
-/

set_option autoImplicit false

namespace QuoteScript

/-- An evaluator for expressions in a scope. -/
abbrev Evaluator : Type :=
  ScopeId → Expr → EvalM Value

/-- Goes on with the value of a computation, unless it unwinds. -/
def unlessUnwinding (x : EvalM Value) (next : Value → EvalM Value) : EvalM Value := do
  let v ← x
  if v.isUnwinding then return v else next v

/-! ### Statements -/

/-- Evaluates a statement. A `let` has no value, unless its right side
unwinds. -/
def evalStmt (eval : Evaluator) (scope : ScopeId) : Stmt → EvalM (Option Value)
  | .letIn _ name value => do
    let v ← eval scope value
    if v.isUnwinding then return some v
    else
      -- The name is bound only to a value that stands on its own.
      EvalM.bindName scope name v
      return none
  | .ret _ value => do
    let v ← eval scope value
    -- A `return` does not wrap what unwinds already.
    if v.isUnwinding then return some v else return some (.returned v)
  | .expr _ value => do
    let v ← eval scope value
    return some v

/-- Whether the value of a statement, if it has one, unwinds. -/
def unwinds (v : Option Value) : Bool :=
  v.any Value.isUnwinding

/-- Evaluates statements up to the first that unwinds. The value is
that of the last one evaluated, or `last` if there is none. -/
def evalBody (eval : Evaluator) (scope : ScopeId) (last : Option Value) :
    List Stmt → EvalM (Option Value)
  | [] => return last
  | s :: rest => do
    let v ← evalStmt eval scope s
    if unwinds v then return v else evalBody eval scope v rest

/-- Evaluates a block. -/
def evalBlock (eval : Evaluator) (scope : ScopeId) (block : Block) : EvalM (Option Value) :=
  evalBody eval scope none block.body

/-! ### Parts of expressions -/

/-- Evaluates expressions from left to right. The first value that
unwinds is the answer instead of all values. -/
def evalAll (eval : Expr → EvalM Value) : List Expr → EvalM (Except Value (List Value))
  | [] => return .ok []
  | e :: rest => do
    let v ← eval e
    if v.isUnwinding then return .error v
    else
      match ← evalAll eval rest with
      | .ok values => return .ok (v :: values)
      | .error u => return .error u

/-- Evaluates the pairs of a dict and puts them, one after the other,
among the entries that are there already. -/
def evalPairs (eval : Expr → EvalM Value) (entries : List (Key × Value)) :
    List (Expr × Expr) → EvalM Value
  | [] => EvalM.newDict entries
  | (key, value) :: rest =>
    unlessUnwinding (eval key) fun k =>
      -- The key is checked before its value is evaluated.
      match k.key? with
      | none => return .fault (.unusableKey k.kind)
      | some k =>
        unlessUnwinding (eval value) fun v =>
          evalPairs eval (putEntry k v entries) rest

/-- The value of a name: what the scopes bind it to, or else the native
function of that name. -/
def evalName (scope : ScopeId) (name : String) : EvalM Value := do
  match ← EvalM.lookup scope name with
  | some v => return v
  | none =>
    -- The native functions come behind all scopes, so a binding hides one.
    match Native.ofName? name with
    | some native => return .native native
    | none => return .fault (.unboundName name)

/-- Evaluates the body of a closure with its parameters bound to
arguments, in a scope made inside the scope of the closure. -/
def evalClosureBody (eval : Evaluator) (params : List String) (body : Block) (outer : ScopeId)
    (args : List Value) : EvalM Value := do
  let scope ← EvalM.newScope (some outer)
  EvalM.bindAll scope params args
  let v ← evalBlock eval scope body
  -- A fault is not unwrapped: it leaves the call as it is.
  return (v.map Value.unwrapReturn).getD .null

/-- Calls a value with arguments. -/
def applyValue (eval : Evaluator) (callee : Value) (args : List Value) : EvalM Value :=
  match callee with
  | .closure .function _ params body outer =>
    if params.length = args.length then evalClosureBody eval params body outer args
    else return .fault (.wrongArgumentCount args.length params.length)
  | .native native =>
    if native.arity = args.length then native.apply args
    else return .fault (.wrongArgumentCount args.length native.arity)
  -- Macros are closures, and no function: only the expansion calls them.
  | v => return .fault (.notCallable v.kind)

/-! ### Expressions -/

/-- Evaluates an expression, given an evaluator for the expressions
inside it. -/
def evalWith (eval : Evaluator) (scope : ScopeId) : Expr → EvalM Value
  | .ident _ name => evalName scope name
  | .int _ n => return .int n
  | .str _ s => return .str s
  | .bool _ b => return .bool b
  | .unary _ op operand =>
    unlessUnwinding (eval scope operand) fun v => return applyUnary op v
  | .binary _ op left right =>
    unlessUnwinding (eval scope left) fun a =>
      unlessUnwinding (eval scope right) fun b => applyBinary op a b
  | .cond _ condition consequence alternative =>
    unlessUnwinding (eval scope condition) fun v =>
      if v.isTruthy then do return (← evalBlock eval scope consequence).getD .null
      else
        match alternative with
        | some b => do return (← evalBlock eval scope b).getD .null
        | none => return .null
  | .lambda _ kind params body => EvalM.newClosure kind params body scope
  | .call _ callee args =>
    -- A call that quotes does not look at what its name is bound to.
    match quotedArgument? callee args with
    | some arg => quoteNode (eval scope) (.expr arg)
    | none =>
      unlessUnwinding (eval scope callee) fun f => do
        match ← evalAll (eval scope) args with
        | .ok values => applyValue eval f values
        | .error v => return v
  | .array _ items => do
    match ← evalAll (eval scope) items with
    | .ok values => EvalM.newArray values
    | .error v => return v
  | .index _ left index =>
    unlessUnwinding (eval scope left) fun v =>
      unlessUnwinding (eval scope index) fun i => return applyIndex v i
  | .dict _ pairs => evalPairs (eval scope) [] pairs

/-- Evaluates an expression in a scope, with fuel for so many levels of
nesting. -/
def evalExpr : Nat → Evaluator
  | 0, _, _ => EvalM.outOfFuel
  | fuel + 1, scope, e => evalWith (evalExpr fuel) scope e

/-! ### Programs and nodes -/

/-- Evaluates a program. A pending `return` ends it with the value that
is returned. -/
def evalProgram (fuel : Nat) (scope : ScopeId) (program : Program) : EvalM (Option Value) := do
  let v ← evalBody (evalExpr fuel) scope none program
  return v.map Value.unwrapReturn

/-- Evaluates any node. What has no value gives null, and a pending
`return` gives the value that is returned. -/
def evalNode (fuel : Nat) (scope : ScopeId) (node : Node) : EvalM Value := do
  let v ← match node with
    -- A program unwraps its own `return`; the last line does it for the others.
    | .program p => evalProgram fuel scope p
    | .stmt s => evalStmt (evalExpr fuel) scope s
    | .block b => evalBlock (evalExpr fuel) scope b
    | .expr e => some <$> evalExpr fuel scope e
  return (v.getD .null).unwrapReturn

end QuoteScript
