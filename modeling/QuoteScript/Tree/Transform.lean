import QuoteScript.Tree.Synthesis

/-!
# `QuoteScript.Tree.Transform`: one pass over a tree, bottom up

A pass walks over a tree once. The parts of a node are visited first,
from left to right, then the node itself is handed to the transform
with its new parts, and what comes back takes its place. Nothing that
the transform returns is visited again.

A place in a tree takes only a node of its own kind: a statement, a
block, an expression, or, for a parameter, an identifier. When the
transform returns something else, the place keeps what was handed to
the transform. The root of the walk has no place, and is returned as
the transform left it.

Parameters are visited as identifiers, before the body. Keys are
visited before their values. The name that a `let` binds is not
visited.

The transform may have effects: it runs in any monad.

* `Node.transformM` is the walk.
-/

set_option autoImplicit false

namespace QuoteScript

universe u

variable {m : Type → Type u} [Monad m]

/-! ### Places -/

/-- Hands an expression to the transform and fills its place. -/
def exprPlace (f : Node → m Node) (e : Expr) : m Expr := do
  let node ← f (.expr e)
  -- What does not fit the place is dropped, and the expression stays.
  return node.expr?.getD e

/-- Hands a block to the transform and fills its place. -/
def blockPlace (f : Node → m Node) (b : Block) : m Block := do
  let node ← f (.block b)
  return node.block?.getD b

/-- Hands a statement to the transform and fills its place. -/
def stmtPlace (f : Node → m Node) (s : Stmt) : m Stmt := do
  let node ← f (.stmt s)
  return node.stmt?.getD s

/-- Hands a parameter to the transform and fills its place. -/
def paramPlace (f : Node → m Node) (name : String) : m String := do
  -- A parameter has no token of its own, so one is made for the visit.
  let node ← f (.expr (.mkIdent name))
  return node.name?.getD name

/-! ### The walk -/

/-- Visits parameters. -/
def visitParams (f : Node → m Node) : List String → m (List String)
  | [] => pure []
  | name :: rest => do
    let name ← paramPlace f name
    let rest ← visitParams f rest
    return name :: rest

mutual

/-- Visits the parts of an expression. -/
def Expr.visitParts (f : Node → m Node) : Expr → m Expr
  | .ident t name => pure (.ident t name)
  | .int t value => pure (.int t value)
  | .str t value => pure (.str t value)
  | .bool t value => pure (.bool t value)
  | .unary t op operand => do
    let operand ← operand.visitParts f >>= exprPlace f
    return .unary t op operand
  | .binary t op left right => do
    let left ← left.visitParts f >>= exprPlace f
    let right ← right.visitParts f >>= exprPlace f
    return .binary t op left right
  | .cond t condition consequence alternative => do
    let condition ← condition.visitParts f >>= exprPlace f
    let consequence ← consequence.visitParts f >>= blockPlace f
    let alternative ← visitElse f alternative
    return .cond t condition consequence alternative
  | .lambda t kind params body => do
    -- Parameters are visited before the body, as they are written.
    let params ← visitParams f params
    let body ← body.visitParts f >>= blockPlace f
    return .lambda t kind params body
  | .call t callee args => do
    let callee ← callee.visitParts f >>= exprPlace f
    let args ← visitExprs f args
    return .call t callee args
  | .array t items => do
    let items ← visitExprs f items
    return .array t items
  | .index t left index => do
    let left ← left.visitParts f >>= exprPlace f
    let index ← index.visitParts f >>= exprPlace f
    return .index t left index
  | .dict t pairs => do
    let pairs ← visitPairs f pairs
    return .dict t pairs

/-- Visits expressions in their places. -/
def visitExprs (f : Node → m Node) : List Expr → m (List Expr)
  | [] => pure []
  | e :: rest => do
    let e ← e.visitParts f >>= exprPlace f
    let rest ← visitExprs f rest
    return e :: rest

/-- Visits the pairs of a dict in their places. -/
def visitPairs (f : Node → m Node) : List (Expr × Expr) → m (List (Expr × Expr))
  | [] => pure []
  | (key, value) :: rest => do
    let key ← key.visitParts f >>= exprPlace f
    let value ← value.visitParts f >>= exprPlace f
    let rest ← visitPairs f rest
    return (key, value) :: rest

/-- Visits the branch that may follow the first one, in its place. -/
def visitElse (f : Node → m Node) : Option Block → m (Option Block)
  | none => pure none
  | some b => do
    let b ← b.visitParts f >>= blockPlace f
    return some b

/-- Visits the parts of a block. -/
def Block.visitParts (f : Node → m Node) : Block → m Block
  | .mk t body => do
    let body ← visitBody f body
    return .mk t body

/-- Visits statements in their places. -/
def visitBody (f : Node → m Node) : List Stmt → m (List Stmt)
  | [] => pure []
  | s :: rest => do
    let s ← s.visitParts f >>= stmtPlace f
    let rest ← visitBody f rest
    return s :: rest

/-- Visits the parts of a statement. -/
def Stmt.visitParts (f : Node → m Node) : Stmt → m Stmt
  | .letIn t name value => do
    let value ← value.visitParts f >>= exprPlace f
    return .letIn t name value
  | .ret t value => do
    let value ← value.visitParts f >>= exprPlace f
    return .ret t value
  | .expr t value => do
    let value ← value.visitParts f >>= exprPlace f
    return .expr t value

end

/-- Visits the parts of a node. -/
def Node.visitParts (f : Node → m Node) : Node → m Node
  | program p => do return program (← visitBody f p)
  | stmt s => do return stmt (← s.visitParts f)
  | block b => do return block (← b.visitParts f)
  | expr e => do return expr (← e.visitParts f)

/-- Transforms a tree bottom up, in one pass. -/
def Node.transformM (f : Node → m Node) (node : Node) : m Node :=
  -- The root has no place, so what comes back may be of any kind.
  node.visitParts f >>= f

end QuoteScript
