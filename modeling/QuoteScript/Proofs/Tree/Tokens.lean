import QuoteScript.Tree.Basic

/-!
# `QuoteScript.Proofs.Tree.Tokens`: trees that are read off a text

Every part of a tree carries a token. Read in source order, the tokens of
a tree are those of its parts: the callee stands in front of the
parenthesis, and the left operand in front of the operator. A statement
that is only an expression adds none, since its token belongs to the
expression, or is the parenthesis in front of it.

A tree is *read off* a text if its tokens are of the kinds that its parts
require, and if its names, strings and integers are what tokens of the
text stand for. There is one exception: the name of a `let` may be empty
if something was found wrong with the text.

* `Expr.tokens`, `Block.tokens`, `Stmt.tokens`: the tokens of a tree.
* `Origin`: what trees are read off.
* `Expr.ReadOff`, `Block.ReadOff`, `Stmt.ReadOff`: trees that are.
-/

set_option autoImplicit false

namespace QuoteScript

/-! ### Tokens in source order -/

mutual

/-- The tokens of an expression, in source order. -/
def Expr.tokens : Expr → List Token
  | .ident t _ | .int t _ | .str t _ | .bool t _ => [t]
  | .unary t _ operand => t :: operand.tokens
  | .binary t _ left right => left.tokens ++ t :: right.tokens
  | .cond t condition consequence alternative =>
    t :: condition.tokens ++ consequence.tokens ++ elseTokens alternative
  | .lambda t _ _ body => t :: body.tokens
  | .call t callee args => callee.tokens ++ t :: exprsTokens args
  | .array t items => t :: exprsTokens items
  | .index t left i => left.tokens ++ t :: i.tokens
  | .dict t pairs => t :: pairsTokens pairs

/-- The same for a list of expressions. -/
def exprsTokens : List Expr → List Token
  | [] => []
  | e :: rest => e.tokens ++ exprsTokens rest

/-- The same for the pairs of a dict. -/
def pairsTokens : List (Expr × Expr) → List Token
  | [] => []
  | (key, value) :: rest => key.tokens ++ value.tokens ++ pairsTokens rest

/-- The same for the branch that may follow the first one. -/
def elseTokens : Option Block → List Token
  | none => []
  | some b => b.tokens

/-- The same for a block. -/
def Block.tokens : Block → List Token
  | .mk t body => t :: bodyTokens body

/-- The same for a list of statements. -/
def bodyTokens : List Stmt → List Token
  | [] => []
  | s :: rest => s.tokens ++ bodyTokens rest

/-- The same for a statement. -/
def Stmt.tokens : Stmt → List Token
  | .letIn t _ value | .ret t value => t :: value.tokens
  | .expr _ value => value.tokens

end

/-! ### Trees and texts -/

/-- What trees are read off: the tokens of a text, and whether something
was found wrong with it. -/
structure Origin where
  stream : List Token
  broken : Prop

namespace Origin

/-- A token of the text, of a given kind. -/
def Has (o : Origin) (kind : TokenKind) (t : Token) : Prop :=
  t ∈ o.stream ∧ t.kind = kind

/-- A name that is written in the text. -/
def Names (o : Origin) (name : String) : Prop :=
  ∃ t, o.Has .ident t ∧ t.literal = name

/-- An integer with the value that the digits of a token write. -/
def Counts (o : Origin) (t : Token) (n : Int64) : Prop :=
  o.Has .int t ∧ n.toInt = Nat.ofDigitChars 10 t.literal.toList 0 ∧ 0 ≤ n.toInt ∧
    n.toInt ≤ 9223372036854775807

end Origin

mutual

/-- An expression that is read off a text. -/
def Expr.ReadOff (o : Origin) : Expr → Prop
  | .ident t name => o.Has .ident t ∧ name = t.literal
  | .int t n => o.Counts t n
  | .str t text => o.Has .string t ∧ text = t.literal
  | .bool t b => o.Has (if b then .trueWord else .falseWord) t
  | .unary t op operand => o.Has op.tokenKind t ∧ operand.ReadOff o
  | .binary t op left right => o.Has op.tokenKind t ∧ left.ReadOff o ∧ right.ReadOff o
  | .cond t condition consequence alternative =>
    o.Has .ifWord t ∧ condition.ReadOff o ∧ consequence.ReadOff o ∧ elseReadOff o alternative
  | .lambda t kind params body =>
    o.Has kind.tokenKind t ∧ (∀ name ∈ params, o.Names name) ∧ body.ReadOff o
  | .call t callee args => o.Has .leftParen t ∧ callee.ReadOff o ∧ exprsReadOff o args
  | .array t items => o.Has .leftBracket t ∧ exprsReadOff o items
  | .index t left i => o.Has .leftBracket t ∧ left.ReadOff o ∧ i.ReadOff o
  | .dict t pairs => o.Has .leftBrace t ∧ pairsReadOff o pairs

/-- The same for a list of expressions. -/
def exprsReadOff (o : Origin) : List Expr → Prop
  | [] => True
  | e :: rest => e.ReadOff o ∧ exprsReadOff o rest

/-- The same for the pairs of a dict. -/
def pairsReadOff (o : Origin) : List (Expr × Expr) → Prop
  | [] => True
  | (key, value) :: rest => key.ReadOff o ∧ value.ReadOff o ∧ pairsReadOff o rest

/-- The same for the branch that may follow the first one. -/
def elseReadOff (o : Origin) : Option Block → Prop
  | none => True
  | some b => b.ReadOff o

/-- The same for a block. -/
def Block.ReadOff (o : Origin) : Block → Prop
  | .mk t body => o.Has .leftBrace t ∧ bodyReadOff o body

/-- The same for a list of statements. -/
def bodyReadOff (o : Origin) : List Stmt → Prop
  | [] => True
  | s :: rest => s.ReadOff o ∧ bodyReadOff o rest

/-- The same for a statement. A `let` has an empty name only if something
was found wrong. -/
def Stmt.ReadOff (o : Origin) : Stmt → Prop
  | .letIn t name value =>
    o.Has .letWord t ∧ (name ≠ "" ∧ o.Names name ∨ name = "" ∧ o.broken) ∧ value.ReadOff o
  | .ret t value => o.Has .returnWord t ∧ value.ReadOff o
  | .expr t value => t ∈ o.stream ∧ value.ReadOff o

end

end QuoteScript
