import QuoteScript.Text.Decimal
import QuoteScript.Text.Escape
import QuoteScript.Tree.Basic

/-!
# `QuoteScript.Tree.Render`: trees as source text

Every part of a tree has one spelling, and it can be read back:
operators and index expressions stand between parentheses with all
their operands, blocks keep their braces, and every statement ends in
a semicolon. The spelling does not depend on the tokens of the tree.
-/

set_option autoImplicit false

namespace QuoteScript

/-- Texts in a row, with a comma and a space between them. -/
def commaSeparated (texts : List String) : String :=
  ", ".intercalate texts

/-- The keyword and the parameters in front of a body. -/
def lambdaHead (kind : LambdaKind) (params : List String) : String :=
  kind.tokenKind.text ++ "(" ++ commaSeparated params ++ ") "

mutual

/-- The spelling of an expression. -/
def Expr.render : Expr → String
  | .ident _ name => name
  | .int _ value => Text.writeInt value
  | .str _ value => Text.quoted value
  | .bool _ true => TokenKind.trueWord.text
  | .bool _ false => TokenKind.falseWord.text
  | .unary _ op operand => "(" ++ op.text ++ operand.render ++ ")"
  | .binary _ op left right => "(" ++ left.render ++ " " ++ op.text ++ " " ++ right.render ++ ")"
  | .cond _ condition consequence alternative =>
    "if (" ++ condition.render ++ ") " ++ consequence.render ++ renderElse alternative
  | .lambda _ kind params body => lambdaHead kind params ++ body.render
  | .call _ callee args => callee.render ++ "(" ++ commaSeparated (renderExprs args) ++ ")"
  | .array _ items => "[" ++ commaSeparated (renderExprs items) ++ "]"
  | .index _ left index => "(" ++ left.render ++ "[" ++ index.render ++ "])"
  | .dict _ pairs => "\x7b" ++ commaSeparated (renderPairs pairs) ++ "\x7d"

/-- The spellings of expressions. -/
def renderExprs : List Expr → List String
  | [] => []
  | e :: rest => e.render :: renderExprs rest

/-- The spellings of the pairs of a dict. -/
def renderPairs : List (Expr × Expr) → List String
  | [] => []
  | (key, value) :: rest => (key.render ++ ": " ++ value.render) :: renderPairs rest

/-- The spelling of the branch that may follow the first one. -/
def renderElse : Option Block → String
  | none => ""
  | some alternative => " else " ++ alternative.render

/-- The spelling of a block. -/
def Block.render : Block → String
  | .mk _ body => "\x7b" ++ renderBody body ++ " \x7d"

/-- The spellings of statements, each with a space in front. -/
def renderBody : List Stmt → String
  | [] => ""
  | s :: rest => " " ++ s.render ++ renderBody rest

/-- The spelling of a statement. -/
def Stmt.render : Stmt → String
  | .letIn _ name value => "let " ++ name ++ " = " ++ value.render ++ ";"
  | .ret _ value => "return " ++ value.render ++ ";"
  | .expr _ value => value.render ++ ";"

end

/-- The spelling of a program: its statements, with a space between
them. -/
def Program.render (program : Program) : String :=
  " ".intercalate (program.map Stmt.render)

/-- The spelling of a node. -/
def Node.render : Node → String
  | program p => Program.render p
  | stmt s => s.render
  | block b => b.render
  | expr e => e.render

end QuoteScript
