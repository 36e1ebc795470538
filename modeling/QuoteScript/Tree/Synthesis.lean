import QuoteScript.Text.Decimal
import QuoteScript.Tree.Basic

/-!
# `QuoteScript.Tree.Synthesis`: trees without a source text

A part of a tree that was never written down still carries a token:
the one that its spelling would start with, or, for an operator, a
call or an index expression, the one that tells it apart. Only the
place is free, and is given as a span.

* `Expr.synthesized`, `Stmt.synthesized` and `Block.ofStmts` give a
  part of a tree its token.
-/

set_option autoImplicit false

namespace QuoteScript

namespace Expr

/-- The token that an expression would carry if it were written down
at `span`. -/
def canonicalToken (span : Span) : Expr → Token
  | ident _ name => ⟨.ident, name, span⟩
  | int _ value => ⟨.int, Text.writeInt value, span⟩
  | str _ value => ⟨.string, value, span⟩
  | bool _ true => .fixed .trueWord span
  | bool _ false => .fixed .falseWord span
  | unary _ op _ => .fixed op.tokenKind span
  | binary _ op _ _ => .fixed op.tokenKind span
  | cond _ _ _ _ => .fixed .ifWord span
  | lambda _ kind _ _ => .fixed kind.tokenKind span
  | call _ _ _ => .fixed .leftParen span
  | array _ _ => .fixed .leftBracket span
  | index _ _ _ => .fixed .leftBracket span
  | dict _ _ => .fixed .leftBrace span

/-- An expression whose own token is the one it would carry if it were
written down at `span`. The parts of the expression keep theirs. -/
def synthesized (e : Expr) (span : Span := {}) : Expr :=
  e.withToken (e.canonicalToken span)

/-! Expressions that are built one by one at a place. -/

/-- The name `name`, placed at `span`. -/
def mkIdent (name : String) (span : Span := {}) : Expr :=
  ident ⟨.ident, name, span⟩ name

/-- The integer literal `value`, placed at `span`. -/
def mkInt (value : Int64) (span : Span := {}) : Expr :=
  int ⟨.int, Text.writeInt value, span⟩ value

/-- The boolean literal `value`, placed at `span`. -/
def mkBool (value : Bool) (span : Span := {}) : Expr :=
  bool (.fixed (if value then .trueWord else .falseWord) span) value

/-- An operator in front of its operand, placed at `span`. -/
def mkUnary (op : UnaryOp) (operand : Expr) (span : Span := {}) : Expr :=
  unary (.fixed op.tokenKind span) op operand

/-- An operator between its operands, placed at `span`. -/
def mkBinary (op : BinaryOp) (left right : Expr) (span : Span := {}) : Expr :=
  binary (.fixed op.tokenKind span) op left right

end Expr

/-- A statement with the token it would carry if it were written down.
A statement that is an expression shares its token. -/
def Stmt.synthesized : Stmt → Stmt
  | letIn _ name value => letIn (.fixed .letWord {}) name value
  | ret _ value => ret (.fixed .returnWord {}) value
  | expr _ value => expr value.token value

/-- A block of given statements. -/
def Block.ofStmts (body : List Stmt) : Block :=
  .mk (.fixed .leftBrace {}) body

end QuoteScript
