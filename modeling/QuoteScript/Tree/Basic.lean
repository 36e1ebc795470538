import QuoteScript.Token.Basic

/-!
# `QuoteScript.Tree.Basic`: syntax trees

A program is a list of statements. Statements, blocks and expressions
each carry the token they start with. For an operator between two
operands that is the operator, for a call the opening parenthesis, and
for an index expression the opening bracket.

`Node` is any of the four: it is what a quote holds and what a pass
over a tree hands out.
-/

set_option autoImplicit false

namespace QuoteScript

/-- The operators in front of one operand. -/
inductive UnaryOp where
  | negate
  | not
  deriving DecidableEq, Repr

/-- The operators between two operands. -/
inductive BinaryOp where
  | add
  | subtract
  | multiply
  | divide
  | less
  | greater
  | equal
  | notEqual
  deriving DecidableEq, Repr

/-- The two literals with parameters and a body: functions, and the
macros that change a program before it runs. -/
inductive LambdaKind where
  | function
  | macroRule
  deriving DecidableEq, Repr

namespace UnaryOp

/-- The kind of the token that spells the operator. -/
def tokenKind : UnaryOp → TokenKind
  | negate => .minus
  | not => .bang

/-- The spelling of the operator. -/
def text (op : UnaryOp) : String :=
  op.tokenKind.text

end UnaryOp

namespace BinaryOp

/-- The kind of the token that spells the operator. -/
def tokenKind : BinaryOp → TokenKind
  | add => .plus
  | subtract => .minus
  | multiply => .asterisk
  | divide => .slash
  | less => .less
  | greater => .greater
  | equal => .equalEqual
  | notEqual => .bangEqual

/-- The spelling of the operator. -/
def text (op : BinaryOp) : String :=
  op.tokenKind.text

end BinaryOp

/-- The kind of the keyword that starts a literal with parameters. -/
def LambdaKind.tokenKind : LambdaKind → TokenKind
  | function => .fnWord
  | macroRule => .macroWord

/-! ### The tree -/

mutual

/-- An expression, with its token first. The pairs of a `dict` stand
in source order. -/
inductive Expr where
  | ident (token : Token) (name : String)
  | int (token : Token) (value : Int64)
  | str (token : Token) (value : String)
  | bool (token : Token) (value : Bool)
  | unary (token : Token) (op : UnaryOp) (operand : Expr)
  | binary (token : Token) (op : BinaryOp) (left right : Expr)
  | cond (token : Token) (condition : Expr) (consequence : Block) (alternative : Option Block)
  | lambda (token : Token) (kind : LambdaKind) (params : List String) (body : Block)
  | call (token : Token) (callee : Expr) (args : List Expr)
  | array (token : Token) (items : List Expr)
  | index (token : Token) (left index : Expr)
  | dict (token : Token) (pairs : List (Expr × Expr))

/-- Statements between braces: the body of a function, of a macro or
of a branch. -/
inductive Block where
  | mk (token : Token) (body : List Stmt)

/-- A statement, with its token first. -/
inductive Stmt where
  | letIn (token : Token) (name : String) (value : Expr)
  | ret (token : Token) (value : Expr)
  | expr (token : Token) (value : Expr)

end

/-- A program is a list of statements. -/
abbrev Program := List Stmt

/-- Any part of a tree. -/
inductive Node where
  | program (program : Program)
  | stmt (stmt : Stmt)
  | block (block : Block)
  | expr (expr : Expr)

/-! ### Tokens of a tree -/

/-- The token that an expression carries. -/
def Expr.token : Expr → Token
  | ident t _ | int t _ | str t _ | bool t _ | unary t _ _ | binary t _ _ _ | cond t _ _ _
  | lambda t _ _ _ | call t _ _ | array t _ | index t _ _ | dict t _ => t

/-- The same expression with another token. -/
def Expr.withToken (t : Token) : Expr → Expr
  | ident _ name => ident t name
  | int _ value => int t value
  | str _ value => str t value
  | bool _ value => bool t value
  | unary _ op operand => unary t op operand
  | binary _ op left right => binary t op left right
  | cond _ condition consequence alternative => cond t condition consequence alternative
  | lambda _ kind params body => lambda t kind params body
  | call _ callee args => call t callee args
  | array _ items => array t items
  | index _ left i => index t left i
  | dict _ pairs => dict t pairs

namespace Block

/-- The token that a block carries. -/
def token : Block → Token
  | mk t _ => t

/-- The statements of a block. -/
def body : Block → List Stmt
  | mk _ body => body

end Block

/-- The token that a statement carries. -/
def Stmt.token : Stmt → Token
  | letIn t _ _ | ret t _ | expr t _ => t

/-- The literal of the first token of a program, empty for the empty
program. -/
def Program.tokenLiteral (program : Program) : String :=
  match program with
  | [] => ""
  | s :: _ => s.token.literal

namespace Node

/-- What a node is, in one word. -/
def kindName : Node → String
  | program _ => "program"
  | stmt _ => "statement"
  | block _ => "block"
  | expr _ => "expression"

/-- The statement that a node is, if it is one. -/
def stmt? : Node → Option Stmt
  | stmt s => some s
  | _ => none

/-- The block that a node is, if it is one. -/
def block? : Node → Option Block
  | block b => some b
  | _ => none

/-- The expression that a node is, if it is one. -/
def expr? : Node → Option Expr
  | expr e => some e
  | _ => none

/-- The name that a node is, if it is an identifier. -/
def name? : Node → Option String
  | expr (.ident _ name) => some name
  | _ => none

end Node

end QuoteScript
